import DocTags.FilePattern

/-! The files of a file system that a pattern matches, with the paths they are shown by. -/
namespace DocTags

def startPath : Bytes := Path.here

def shownPath (folder name : Bytes) : Bytes :=
  if Path.same folder startPath then name else Path.join folder name

/-- A path has less than 4096 bytes, so it goes through no more places than this. -/
def FilePattern.deepest : Nat := 2048

/-- All that can be listed below a folder, each place before what lies below it: path, name and
place. -/
def FileSystem.descendants (fs : FileSystem) :
    (depth : Nat) → Bytes → Place → List (Bytes × Bytes × Place)
  | 0,_,_ => []
  | depth+1,path,s =>
    (((fs.node? s).bind (·.listed?)).getD []).flatMap fun c =>
      (shownPath path c.1,c.1,c.2) :: fs.descendants depth (shownPath path c.1) c.2

namespace FilePattern

/-- The names of the folder above and of the folder itself, where pieces match them. They are tried
only by pieces that start with a plain dot. -/
def dotNames (ps : List Piece) : List Bytes :=
  if ps.head? = some (.char '.') then
    [Path.parent,Path.here].filter fun n => (Component.wild ps).matchesName n
  else []

def walk (fs : FileSystem) : List Component → Bytes → List Bytes
  | [],_ => []
  | [.literal n],p => literalPaths n.bytes p
  | .literal n :: cs,p => (literalPaths n.bytes p).flatMap fun q => walk fs cs q
  | [.wild ps],p => wildPaths ps p
  | .wild ps :: cs,p => (wildPaths ps p).flatMap fun q => walk fs cs q
  | [.anyFolders],p => ((places p).filter fun q => (fs.node? q.2.2).any (·.isFolder)).map (·.1)
  | [.anyFolders,c],p => ((places p).filter fun q => c.matchesName q.2.1).map (·.1)
  | .anyFolders :: c :: cs,p =>
    ((places p).filter fun q => c.matchesName q.2.1).flatMap fun q => walk fs cs q.1
where
  literalPaths (n p : Bytes) : List Bytes :=
    if n = Path.here ∨ n = Path.parent then
      if (fs.find? p).any (·.isFolder) then [shownPath p n] else []
    else if (fs.find? (shownPath p n)).isSome then [shownPath p n] else []
  wildPaths (ps : List Piece) (p : Bytes) : List Bytes :=
    match (fs.find? p).bind (·.listed?) with
    | none => []
    | some children =>
      (dotNames ps).map (Path.join p) ++
        ((children.map (·.1)).filter fun n => (Component.wild ps).matchesName n).map (shownPath p)
  places (p : Bytes) : List (Bytes × Bytes × FileSystem.Place) :=
    ((fs.place? p).map (fs.descendants deepest p)).getD []

def files (f : FilePattern) (fs : FileSystem) : List Bytes :=
  if f.folderOnly then []
  else
    let start := if f.absolute then [Path.slash] else startPath
    (walk fs f.components start).filter fun p => (fs.find? p).any (·.isFile)

end FilePattern
end DocTags
