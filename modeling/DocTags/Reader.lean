import DocTags.Annotations
import DocTags.ReadError
import DocTags.Reference

/-! A reader of one comment text. A look-up scans for its key alone and keeps what a repeated key
gave; a full parse replaces all that was kept and lasts until the text changes. -/
namespace DocTags

structure Reader where
  text : Text
  cache : Annotations
  /-- Whether the cache holds the full parse of the text. -/
  complete : Bool

namespace Reader

def ofText (s : Text) : Reader := ⟨s,[],false⟩

/-- A reader of the comment that a reference resolves to. Nothing is resolved for an empty one. -/
def ofReference (resolve : Reference → Text) (r : Reference) : Except ReadError Reader :=
  if r.isEmpty then .error (.emptyReference r.method) else .ok (ofText (resolve r))

def setContent (s : Text) (_ : Reader) : Reader := ofText s

def content (r : Reader) : Text := r.text

/-- The value of a key. What is kept answers first; else a bare occurrence anywhere makes the value
true; else the occurrences with a value decide, and two or more of them are kept. -/
def lookup (k : Text) (r : Reader) : Option Value × Reader :=
  match r.cache.lookup k with
  | some vs => (some (Annotations.collapse vs),r)
  | none =>
    if !Tag.isKey k then (none,r)
    else if Tag.hasBare r.text k then (some (.bool true),r)
    else match (Tag.valuesOf r.text k).map Value.ofText with
      | [] => (none,r)
      | [v] => (some v,r)
      | vs =>
        let cache := vs.foldl (fun es v => Annotations.add k v es) r.cache
        ((cache.lookup k).map Annotations.collapse,{ r with cache })

def parameter (k : Text) (r : Reader) : Option Value × Reader := r.lookup k

def parseAll (r : Reader) : Reader :=
  if r.complete then r else { r with cache := Annotations.ofText r.text, complete := true }

def parameters (r : Reader) : List (Text × Value) × Reader :=
  let r := r.parseAll
  (Annotations.fields r.cache,r)

def occurrences (r : Reader) : Annotations × Reader :=
  let r := r.parseAll
  (r.cache,r)

def declarations (tag : Text) (r : Reader) :
    Except ReadError (List VariableDeclaration) × Reader :=
  let (v,r) := r.lookup tag
  ((VariableDeclaration.ofTag v).mapError (.invalidDeclaration tag),r)

end Reader

inductive Request
  | lookup (key : Text)
  | parameter (key : Text)
  | parseAll
  | parameters
  | occurrences
  | declarations (tag : Text)
  | setContent (text : Text)
  | content

inductive Answer
  | value (v : Option Value)
  | done
  | parameters (fields : List (Text × Value))
  | occurrences (annotations : Annotations)
  | declarations (result : Except ReadError (List VariableDeclaration))
  | content (text : Text)

namespace Reader

def answer (r : Reader) : Request → Answer × Reader
  | .lookup k => let (v,r) := r.lookup k; (.value v,r)
  | .parameter k => let (v,r) := r.parameter k; (.value v,r)
  | .parseAll => (.done,r.parseAll)
  | .parameters => let (fs,r) := r.parameters; (.parameters fs,r)
  | .occurrences => let (es,r) := r.occurrences; (.occurrences es,r)
  | .declarations tag => let (ds,r) := r.declarations tag; (.declarations ds,r)
  | .setContent s => (.done,r.setContent s)
  | .content => (.content r.content,r)

def answers (r : Reader) : List Request → List Answer
  | [] => []
  | q :: qs =>
    let (a,r) := r.answer q
    a :: answers r qs

def run (r : Reader) (qs : List Request) : Reader := qs.foldl (fun r q => (r.answer q).2) r

end Reader
end DocTags
