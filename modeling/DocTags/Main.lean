import DocTags.Command

/-! The program. It looks at the part of the file system that its arguments can reach, reads the files
that they select, and prints what the command gives: the report, or warnings and the failure on standard
error. -/
namespace DocTags

def usage : String :=
  "usage: doctags [-t TARGET] [-k KEY | -d TAG] [-f FORMAT] [FILES]..."

abbrev Leaves := List (Bytes × FileSystem.Nodes.Leaf)

def leaf (path : String) (l : FileSystem.Nodes.Leaf) : Bytes × FileSystem.Nodes.Leaf :=
  (Text.bytes path.toList,l)

def placeAt (path : String) : IO.FS.DirEntry := ⟨"/",path⟩

/-- The path without links that a path from the top stands for. The top itself has the empty one. -/
def real? (path : String) : IO (Option String) := do
  try
    let real := (← IO.FS.realPath (placeAt path).path).toString
    return some (if real = "/" then "" else real)
  catch _ => return none

def reason (e : IO.Error) : Text :=
  match e with
  | .permissionDenied .. => "Permission denied (os error 13)".toList
  | e => e.toString.toList

mutual
/-- What lies at a path without links, and below it as deep as asked. Files are not opened. -/
partial def leavesAt (depth : Nat) (seen : List String) (path : String) : IO Leaves := do
  let place := placeAt path
  if ← place.path.isDir then
    if depth = 0 then return [leaf path (.folder none)]
    let children ← try (·.toList) <$> place.path.readDir
      catch e => return [leaf path (.folder (some (reason e)))]
    let below ← children.mapM fun child => linksAt (depth-1) seen (path ++ "/" ++ child.fileName)
    return leaf path (.folder none) :: below.flatten
  else return [leaf path (.file (.ok ByteArray.empty))]

partial def linksAt (depth : Nat) (seen : List String) (path : String) : IO Leaves := do
  match ← real? path with
  | none => return []
  | some real =>
    if real = path then leavesAt depth seen path
    else
      let link := leaf path (.link (FileSystem.names (Text.bytes real.toList)))
      if seen.contains real then return [link]
      return link :: (← leavesAt depth (real :: seen) real)
end

def follow (folder piece : String) : String :=
  if piece = "" ∨ piece = "." then folder
  else if piece = ".." then "/".intercalate (folder.splitOn "/").dropLast
  else folder ++ "/" ++ piece

/-- All that an argument can reach: a place with what is in it, or the places below the plain pieces of a
pattern. A piece that starts with a dot may match the folder above. -/
def reachable (working arg : String) : IO Leaves := do
  let isPlain (piece : String) : Bool := !piece.any fun c => c = '*' || c = '?' || c = '['
  let pieces := arg.splitOn "/"
  let wild := pieces.dropWhile isPlain
  let mut folder := if arg.startsWith "/" then "" else working
  let mut leaves : Leaves := []
  for piece in pieces.takeWhile isPlain do
    let path := follow folder piece
    leaves := leaves ++ (← linksAt 0 [] path)
    folder := (← real? path).getD path
  let ups := (wild.filter (·.startsWith ".")).length
  for _ in List.range ups do
    folder := follow folder ".."
  let depth := if wild.any (· = "**") then FilePattern.deepest else ups+wild.length+1
  return leaves ++ (← linksAt depth [] folder)

def contents (fs : FileSystem) (args : List Text) : IO Leaves := do
  let paths := (FileSelection.selectAll fs args).result.toOption.getD []
  (paths.filterMap fs.place?).mapM fun s => do
    let path := s.flatMap (Path.slash :: ·)
    let place := placeAt (String.ofList (Text.shown path))
    let content ← try .ok <$> IO.FS.readBinFile place.path catch e => pure (.error (reason e))
    return (path,.file content)

/-- The file system as far as the arguments tell it from any other. -/
def fileSystem (args : List Text) : IO FileSystem := do
  let working := (← IO.currentDir).toString
  let leaves ← args.mapM fun arg => reachable working (String.ofList arg)
  let leaves := leaf working (.folder none) :: leaves.flatten
  let system (leaves : Leaves) := FileSystem.ofLeaves (Text.bytes working.toList) leaves
  return system (leaves ++ (← contents (system leaves) args))

end DocTags

open DocTags

def main (args : List String) : IO UInt32 := do
  match Arguments.ofTexts? (args.map String.toList) with
  | none =>
    IO.eprintln usage
    return 2
  | some a =>
    let fs ← fileSystem a.files
    let input ← if a.files.isEmpty then (← IO.getStdin).readBinToEnd else pure ByteArray.empty
    let finish := (Command.run a fs input).finish
    for notice in finish.notices do
      IO.eprintln (String.ofList notice)
    IO.print (String.ofList finish.output)
    return finish.status
