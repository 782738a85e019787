import DocTags.Outcome
import DocTags.PatternWalk

/-! The files that arguments select: files by name, the sources in a folder, and what patterns match. -/
namespace DocTags
namespace FileSelection

def sourceExtensions : List Bytes := ["php","inc"].map fun e => Text.bytes e.toList

def isSource (fs : FileSystem) (path : Bytes) (name : Bytes) : Bool :=
  (fs.find? path).any (·.isFile) && (Path.extension? name).any (sourceExtensions.contains ·)

def sourcesIn (fs : FileSystem) (path : Bytes) (names : List Bytes) : List Bytes :=
  (names.filter fun n => isSource fs (Path.join path n) n).map (Path.join path)

def matched (fs : FileSystem) (arg : Text) : Outcome (List Bytes) :=
  match FilePattern.ofText arg with
  | .error e => .fail (.badPattern arg e)
  | .ok p => do
    let files := p.files fs
    if files.isEmpty then Outcome.warn (.noFiles arg)
    return files

/-- What one argument selects. Only an argument that names nothing is a pattern. -/
def select (fs : FileSystem) (arg : Text) : Outcome (List Bytes) :=
  match fs.find? arg.bytes with
  | some (.file _) => return [arg.bytes]
  | some (.folder none children) => return sourcesIn fs arg.bytes (KeyedList.keys children)
  | some (.folder (some reason) _) => .fail (.unlistable arg reason)
  | none => matched fs arg

def selectAll (fs : FileSystem) (args : List Text) : Outcome (List Bytes) := do
  return Path.arrange (← Outcome.collect (select fs) args)

end FileSelection
end DocTags
