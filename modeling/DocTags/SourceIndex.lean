import DocTags.KeyedList
import DocTags.Reference
import DocTags.SourcePattern

/-! The classes and methods that a source text declares, with their doc comments. Methods belong to
the class declared last, until a closing brace in the first column. -/
namespace DocTags

/-- The declarations in order of their first place, each with the comment of its last one. A comment
is kept without its closing delimiter. -/
structure SourceIndex where
  entries : List (Reference × Text)

namespace SourceIndex

open SourcePattern

inductive Landmark
  | classDeclaration (name : Text)
  | functionDeclaration (name : Text)
  | classEnd
  deriving DecidableEq

def landmarks (s : Text) : List (Nat × Landmark) :=
  let classes := (findAll SourcePattern.classDeclaration s).map fun m =>
    (m.start,Landmark.classDeclaration m.found)
  let functions := (findAll SourcePattern.functionDeclaration s).map fun m =>
    (m.start,Landmark.functionDeclaration m.found)
  let ends := (findAll SourcePattern.classEnd s).map fun m => (m.start,Landmark.classEnd)
  (classes ++ functions ++ ends).mergeSort fun a b => a.1 ≤ b.1

def isLooseLine (line : Text) : Bool :=
  match line.trim with
  | [] => true
  | t => "#[".toList.isPrefixOf t

/-- What a comment is kept as, from the text between its delimiters. -/
def stored (interior : Text) : Text := Text.trimEnd isWhiteSpace (docOpen ++ interior)

/-- The last comment that ends at or before the place, unless more than blank lines and attributes
stand between. -/
def attached? (s : Text) (comments : List (Match Text)) (place : Nat) : Option (Match Text) := do
  let m ← comments.reverse.find? fun m => m.stop ≤ place
  if (Text.lines ((s.take place).drop m.stop)).all isLooseLine then some m else none

def commentAt (s : Text) (comments : List (Match Text)) (place : Nat) : Text :=
  match attached? s comments place with
  | some m => stored m.found
  | none => []

structure Progress where
  openClass : Option Text
  entries : List (Reference × Text)

def Progress.step (comment : Nat → Text) (p : Progress) : Nat × Landmark → Progress
  | (i,.classDeclaration c) => ⟨some c,KeyedList.put ⟨c,none⟩ (comment i) p.entries⟩
  | (i,.functionDeclaration f) =>
    match p.openClass with
    | some c => { p with entries := KeyedList.put ⟨c,some f⟩ (comment i) p.entries }
    | none => p
  | (_,.classEnd) => { p with openClass := none }

def ofText (s : Text) : SourceIndex :=
  let comments := findAll docComment s
  ⟨((landmarks s).foldl (Progress.step (commentAt s comments)) ⟨none,[]⟩).entries⟩

def references (x : SourceIndex) : List Reference := KeyedList.keys x.entries

def comment (x : SourceIndex) (r : Reference) : Text := (x.entries.lookup r).getD []

end SourceIndex
end DocTags
