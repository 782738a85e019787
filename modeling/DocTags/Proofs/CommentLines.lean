import DocTags.Proofs.CommentAboveClass
import DocTags.Proofs.JoinedComments
import DocTags.Proofs.LandmarkEffects
import DocTags.Proofs.LineStops

/-! What the text of a doc comment declares. Declarations are searched for in all lines, so a line of a
comment behind its first one declares what it would declare outside of it. -/
namespace DocTags

namespace SourceIndex

open SourcePattern LineScan

/-- The landmarks of a text behind its first line. -/
def laterLandmarks (s : Text) : List Landmark := s.lines.tail.filterMap landmark?

theorem laterLandmarks_of_notMem {l : Text} (h : '\n' ∉ l) : laterLandmarks l = [] := by
  rw [laterLandmarks,Text.lines_of_notMem h]
  rfl

theorem laterLandmarks_append_lineFeed {l : Text} (h : '\n' ∉ l) (t : Text) :
    laterLandmarks (l ++ '\n' :: t) = landmarksIn t := by
  rw [laterLandmarks,Text.lines_append_lineFeed h]
  rfl

theorem laterLandmarks_append {l : Text} (h : '\n' ∉ l) (t : Text) :
    laterLandmarks (l ++ t) = laterLandmarks t := by
  obtain ⟨u,-,-,hl⟩ := Text.exists_lines_append h t
  rw [laterLandmarks,hl]
  rfl

section

variable {c : Char} (hc : isStop c = true)
include hc

theorem landmarksIn_append_stop (s t : Text) :
    landmarksIn (s ++ c :: t) = landmarksIn s ++ laterLandmarks t := by
  induction s using Text.line_induction with
  | last l hl =>
    have hcl : '\n' ∉ l ++ [c] := by simp [hl,(ne_lineFeed_of_isStop hc).symm]
    obtain ⟨u,hu,-,hlines⟩ := Text.exists_lines_append hcl t
    have hm : landmark? (l ++ [c] ++ u) = landmark? l := by
      rw [List.append_assoc]
      exact landmark?_append_stop hc hl hu
    have hs : l ++ c :: t = l ++ [c] ++ t := by simp
    rw [landmarksIn,landmarksIn,laterLandmarks,hs,hlines,Text.lines_of_notMem hl,
      List.filterMap_cons,List.filterMap_cons,hm]
    cases landmark? l <;> rfl
  | line l u hl ih =>
    rw [List.append_assoc,List.cons_append,landmarksIn,landmarksIn,Text.lines_append_lineFeed hl,
      Text.lines_append_lineFeed hl,List.filterMap_cons,List.filterMap_cons]
    cases landmark? l with
    | none => exact ih
    | some m => exact congrArg (m :: ·) ih

theorem laterLandmarks_append_stop (s t : Text) :
    laterLandmarks (s ++ c :: t) = laterLandmarks s ++ laterLandmarks t := by
  induction s using Text.line_induction with
  | last l hl =>
    have hcl : '\n' ∉ l ++ [c] := by simp [hl,(ne_lineFeed_of_isStop hc).symm]
    have hs : l ++ c :: t = l ++ [c] ++ t := by simp
    rw [hs,laterLandmarks_append hcl,laterLandmarks_of_notMem hl,List.nil_append]
  | line l u hl _ =>
    rw [List.append_assoc,List.cons_append,laterLandmarks_append_lineFeed hl,
      laterLandmarks_append_lineFeed hl,landmarksIn_append_stop hc]

end

/-- The delimiters stop declarations, so the first line of a comment and the line behind its end
declare nothing, and its other lines are landmarks like those around it. -/
theorem landmarksIn_docText (a x b : Text) : landmarksIn (a ++ docText x ++ b) =
    landmarksIn a ++ (laterLandmarks x ++ laterLandmarks b) := by
  have hs : a ++ docText x ++ b = a ++ '/' :: (['*','*'] ++ (x ++ '*' :: (['/'] ++ b))) := by
    simp [docText,docOpen,docClose]
  rw [hs,landmarksIn_append_stop (by decide),laterLandmarks_append (by decide),
    laterLandmarks_append_stop (by decide),laterLandmarks_append (by decide)]

theorem references_docText (a x b : Text) : (ofText (a ++ docText x ++ b)).references =
    (declaredBy none (landmarksIn a ++ (laterLandmarks x ++ laterLandmarks b))).eraseDups := by
  rw [references_eq_declaredBy,landmarksIn_docText]

theorem namedClass_openBy (a : Text) : NamedClass (openBy none (landmarksIn a)) := by
  intro c hc
  rcases mem_declaredBy_of_openBy hc with hn | hd
  · cases hn
  · have hr : ⟨c,none⟩ ∈ (ofText a).references := by
      rw [references_eq_declaredBy,List.mem_eraseDups]
      exact hd
    exact (named_of_mem_references hr).className

def sourceBefore : Option Text → Text
  | none => []
  | some c => classLine c

def sourceBehind : Option Text → Text
  | none => []
  | some f => '\n' :: ("function ".toList ++ f)

theorem closed_sourceBefore {o : Option Text} (ho : NamedClass o) : Closed (sourceBefore o) := by
  have hs : '/' ∉ sourceBefore o := by
    cases o with
    | none => simp [sourceBefore]
    | some c => exact notMem_classLine (ho c rfl) rfl (by decide)
  intro a t h
  exact absurd (h ▸ by simp [docOpen]) hs

theorem landmarksIn_sourceBefore {o : Option Text} (ho : NamedClass o) :
    landmarksIn (sourceBefore o) = o.toList.map .classDeclaration := by
  cases o with
  | none => rfl
  | some c =>
    have hl : '\n' ∉ classLine c := notMem_classLine (ho c rfl) rfl (by decide)
    have hm := (landmark?_eq_classDeclaration_iff hl).mpr (declaresClass_classLine (ho c rfl))
    rw [sourceBefore,landmarksIn,Text.lines_of_notMem hl]
    simp [hm]

theorem declaresFunction_functionLine {f : Text} (hf : IsName f) :
    DeclaresFunction ("function ".toList ++ f) f := by
  have hn : Names f f := ⟨hf,[],by simp,by simp⟩
  refine ⟨f,⟨[],[],"function".toList,[' '],rfl,?_,.done,by decide,?_,by simp,hn.flush⟩,Or.inl hn⟩
  · simp [Blanks]
  · simp [Blanks,isGap]

theorem laterLandmarks_sourceBehind {p : Option Text} (hp : ∀ f, p = some f → IsName f) :
    laterLandmarks (sourceBehind p) = functionBehind p := by
  cases p with
  | none => rfl
  | some f =>
    have hf := hp f rfl
    have hl : '\n' ∉ "function ".toList ++ f := by
      rw [List.mem_append,not_or]
      exact ⟨by decide,hf.notMem rfl⟩
    have hm := (landmark?_eq_functionDeclaration_iff hl).mpr (declaresFunction_functionLine hf)
    have hs : sourceBehind (some f) = [] ++ '\n' :: ("function ".toList ++ f) := rfl
    rw [hs,laterLandmarks_append_lineFeed (by simp),landmarksIn,Text.lines_of_notMem hl,
      List.filterMap_cons,hm]
    rfl

theorem declaredBy_toList (o : Option Text) (ms : List Landmark) :
    declaredBy none (o.toList.map .classDeclaration ++ ms) = openClass o ++ declaredBy o ms := by
  cases o <;> rfl

/-- In all surroundings the two comments give the same references. -/
def Interchangeable (x y : Text) : Prop :=
  ∀ a b, Closed a →
    (ofText (a ++ docText x ++ b)).references = (ofText (a ++ docText y ++ b)).references

/-- One class before the comments and one function behind them tell the effects apart. -/
theorem Interchangeable.sameEffect {x y : Text} (h : Interchangeable x y) :
    SameEffect (laterLandmarks x) (laterLandmarks y) := by
  refine sameEffect_of_declared fun o p ho hp => ?_
  have hh := h (sourceBefore o) (sourceBehind p) (closed_sourceBefore ho)
  rw [references_docText,references_docText,landmarksIn_sourceBefore ho,
    laterLandmarks_sourceBehind hp,declaredBy_toList,declaredBy_toList] at hh
  exact hh

theorem SameEffect.interchangeable {x y : Text}
    (h : SameEffect (laterLandmarks x) (laterLandmarks y)) : Interchangeable x y := by
  intro a b _
  rw [references_docText,references_docText,h.eraseDups_eq (namedClass_openBy a)]

/-- A line that is blank, or whose first character behind blanks is a star. -/
def isStarred (l : Text) : Bool :=
  match skipGap l with
  | [] => true
  | c :: _ => c == '*'

def Starred (x : Text) : Prop := ∀ l ∈ x.lines.tail, isStarred l = true

theorem landmark?_of_isStarred {l : Text} (hl : '\n' ∉ l) (h : isStarred l = true) :
    landmark? l = none := by
  refine landmark?_of_stop hl fun c t hg => ?_
  rw [isStarred,hg] at h
  obtain rfl : c = '*' := eq_of_beq h
  decide

theorem Starred.laterLandmarks_eq {x : Text} (h : Starred x) : laterLandmarks x = [] := by
  refine List.filterMap_eq_nil_iff.mpr fun l hl => ?_
  exact landmark?_of_isStarred (Text.notMem_of_mem_lines (List.mem_of_mem_tail hl)) (h l hl)

/-- Two comments give the same references in all surroundings exactly if the lines behind their first
ones have the same effect. If one has no declaration and no closing brace at the start of such a line,
this is so exactly if the other has none either; comments whose lines start with stars have none. -/
theorem interchangeable_comments (x y : Text) :
    (Interchangeable x y ↔ SameEffect (laterLandmarks x) (laterLandmarks y)) ∧
      (laterLandmarks y = [] → (Interchangeable x y ↔ laterLandmarks x = [])) ∧
      (Starred x → Starred y → Interchangeable x y) := by
  have heffect : Interchangeable x y ↔ SameEffect (laterLandmarks x) (laterLandmarks y) :=
    ⟨fun h => h.sameEffect,fun h => h.interchangeable⟩
  refine ⟨heffect,fun hy => ?_,fun hx hy => heffect.mpr ?_⟩
  · rw [heffect,hy]
    exact sameEffect_nil_iff
  · rw [hx.laterLandmarks_eq,hy.laterLandmarks_eq]
    exact sameEffect_nil_iff.mpr rfl

def classAround (x : Text) : Text :=
  "class A\n\x7b\n".toList ++ docText x ++ "\nfunction f() \x7b\x7d\n\x7d\n".toList

def starredWords : Text := "\n * Not the\n * class that saves.\n * \x7d\n ".toList

def plainWords : Text := " Not the one that saves. ".toList

theorem closed_classA : Closed "class A\n\x7b\n".toList :=
  (closed_iff_of_none rfl).mpr (Text.notInfix_iff_cut?.mpr rfl)

theorem references_starredWords :
    Starred starredWords ∧ Starred plainWords ∧
      (ofText (classAround starredWords)).references = (ofText (classAround plainWords)).references ∧
      (ofText (classAround plainWords)).references = [⟨['A'],none⟩,⟨['A'],some ['f']⟩] := by
  have hs : Starred starredWords := by
    unfold Starred
    decide
  have hp : Starred plainWords := by
    unfold Starred
    decide
  have hi := (interchangeable_comments starredWords plainWords).2.2 hs hp
  refine ⟨hs,hp,hi _ _ closed_classA,?_⟩
  rw [ofText_eq_index]
  rfl

def wrappedWords : Text := " Not the\nclass that saves. ".toList

theorem references_wrappedWords :
    Closed "class A\n\x7b\n".toList ∧
      (¬ docClose <:+: wrappedWords ∧ wrappedWords.head? ≠ some '/') ∧
      (¬ docClose <:+: plainWords ∧ plainWords.head? ≠ some '/') ∧
      (ofText (classAround wrappedWords)).references =
        [⟨['A'],none⟩,⟨"that".toList,none⟩,⟨"that".toList,some ['f']⟩] ∧
      (ofText (classAround plainWords)).references = [⟨['A'],none⟩,⟨['A'],some ['f']⟩] ∧
      ¬ Interchangeable wrappedWords plainWords := by
  have hw : ¬ docClose <:+: wrappedWords := Text.notInfix_iff_cut?.mpr (by decide)
  have hp : ¬ docClose <:+: plainWords := Text.notInfix_iff_cut?.mpr (by decide)
  have hwrapped : (ofText (classAround wrappedWords)).references =
      [⟨['A'],none⟩,⟨"that".toList,none⟩,⟨"that".toList,some ['f']⟩] := by
    rw [ofText_eq_index]
    rfl
  have hplain : (ofText (classAround plainWords)).references =
      [⟨['A'],none⟩,⟨['A'],some ['f']⟩] := by
    rw [ofText_eq_index]
    rfl
  refine ⟨closed_classA,⟨hw,by decide⟩,⟨hp,by decide⟩,hwrapped,hplain,fun hi => ?_⟩
  have he : (ofText (classAround wrappedWords)).references =
      (ofText (classAround plainWords)).references := hi _ _ closed_classA
  rw [hwrapped,hplain] at he
  exact absurd he (by decide)

end SourceIndex
end DocTags
