import DocTags.Arguments
import DocTags.FileSelection
import DocTags.Reader
import DocTags.Report
import DocTags.SourceIndex

/-! The command. Without files it reads standard input: one comment, or a source when a target is
given. With files it reads the target in each of them that declares it, or every declaration that has
a comment. -/
namespace DocTags

def Query.read (q : Query) (r : Reader) : Except ReadError Reading :=
  match q with
  | everything => .ok (.parameters r.occurrences.1)
  | value k => .ok (.value (r.lookup k).1)
  | declarations tag => (r.declarations tag).1.map .declarations

namespace Command

def rawTarget : Text := ['-']

def entryOf (q : Query) (x : SourceIndex) (file : Option Text) (r : Reference) :
    Except Failure Entry := do
  let reader ← (Reader.ofReference x.comment r).mapError .unread
  let reading ← (q.read reader).mapError (.unreadComment r)
  return ⟨file,r.toText,reading⟩

def rawEntry (q : Query) (comment : Text) : Except Failure Entry := do
  let reading ← (q.read (.ofText comment)).mapError .unread
  return ⟨none,rawTarget,reading⟩

def inputEntries (a : Arguments) (input : ByteArray) : Except Failure (List Entry) := do
  let some s := Text.ofUtf8? input | throw .unreadableInput
  match a.target with
  | none => return [← rawEntry a.query s]
  | some t =>
    let r := Reference.ofText t
    let x := SourceIndex.ofText s
    if !r.isEmpty && !x.references.contains r then throw (.undeclared r)
    return [← entryOf a.query x none r]

/-- The declarations of a source that a run reports: the target if it is declared, else all that have
a comment. -/
def reported (target : Option Reference) (x : SourceIndex) : List Reference :=
  match target with
  | some r => if x.references.contains r then [r] else []
  | none => x.references.filter fun r => !(x.comment r).isEmpty

def sourceEntries (q : Query) (target : Option Reference) (file source : Text) :
    Except Failure (List Entry) :=
  let x := SourceIndex.ofText source
  (reported target x).mapM (entryOf q x (some file))

/-- The entries of a file, which is shown by its path; one that cannot be read is skipped. -/
def fileEntries (fs : FileSystem) (q : Query) (target : Option Reference) (path : Bytes) :
    Outcome (List Entry) :=
  match fs.read path with
  | .ok source => .ofExcept (sourceEntries q target (Text.shown path) source)
  | .error reason => do
    Outcome.warn (.skipped (Text.shown path) reason)
    return []

def filesEntries (a : Arguments) (fs : FileSystem) : Outcome (List Entry) := do
  let target := a.target.map Reference.ofText
  match target with
  | some r => if r.isEmpty then Outcome.fail (.unread (.emptyReference r.method))
  | none => pure ()
  let files ← FileSelection.selectAll fs a.files
  let entries ← Outcome.collect (fileEntries fs a.query target) files
  match target with
  | some r => if entries.isEmpty then Outcome.fail (.undeclared r)
  | none => pure ()
  return entries

def entries (a : Arguments) (fs : FileSystem) (input : ByteArray) : Outcome (List Entry) :=
  if a.files.isEmpty then .ofExcept (inputEntries a input) else filesEntries a fs

/-- The text that a run prints. An unknown format is found before anything is read. -/
def run (a : Arguments) (fs : FileSystem) (input : ByteArray) : Outcome Text :=
  match Report.Format.ofName? a.format with
  | none => .fail (.unknownFormat a.format)
  | some format => do return Report.write format (← entries a fs input)

end Command
end DocTags
