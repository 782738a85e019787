import DocTags.Proofs.IndexedNames

/-! A class under its doc comment. Whatever the comment holds, the class line is the last one to declare
the class, and the comment is stored without its closing delimiter. -/
namespace DocTags

namespace LineScan

open SourcePattern

theorem declarations_of_declaresClass {e : Nat × Text} {c : Text} (h : DeclaresClass e.2 c)
    (he : '\n' ∉ e.2) (o : Option Text) : declarations o [e] = [(e.1,⟨c,none⟩)] :=
  declarations_classDeclaration [] o ((landmark?_eq_classDeclaration_iff he).mpr h)

end LineScan

namespace SourceIndex

open SourcePattern

/-- A doc comment, from the text between its delimiters. -/
def docText (x : Text) : Text := docOpen ++ (x ++ docClose)

def classLine (n : Text) : Text := "class ".toList ++ (n ++ " \x7b\x7d".toList)

def classUnder (x n : Text) : Text := docText x ++ '\n' :: classLine n

theorem declaresClass_classLine {n : Text} (hn : IsName n) : DeclaresClass (classLine n) n := by
  have hs : Names (n ++ " \x7b\x7d".toList) n := by
    refine ⟨hn,_,rfl,fun c hc => ?_⟩
    obtain rfl : ' ' = c := Option.some.inj hc
    rfl
  refine ⟨_,⟨[],[],"class".toList,[' '],rfl,?_,.done,by decide,?_,by simp,hs.flush⟩,hs⟩
  · simp [Blanks]
  · simp [Blanks,isGap]

theorem docClose_eq : docClose = ['*','/'] := rfl

theorem docClose_notInfix_concat {x : Text} (hx : ¬ docClose <:+: x) :
    ¬ docClose <:+: x ++ docClose.dropLast := by
  have hd : docClose.dropLast = ['*'] := rfl
  rw [hd,List.infix_concat_iff,not_or,List.suffix_concat_iff,not_or]
  refine ⟨⟨List.cons_ne_nil _ _,?_⟩,hx⟩
  rintro ⟨u,hu,-⟩
  have hl := congrArg List.getLast? hu
  simp [docClose_eq] at hl

theorem cutComment?_docText {x : Text} (hx : ¬ docClose <:+: x) (t : Text) :
    cutComment? (docText x ++ t) = some ([],x,t) := by
  have ho : Text.cut? docOpen (docText x ++ t) = some ([],x ++ (docClose ++ t)) :=
    Text.cut?_eq_some_iff.mpr ⟨by simp [docText],by simp⟩
  have hc : Text.cut? docClose (x ++ (docClose ++ t)) = some (x,t) :=
    (Text.cut?_append_separator_iff (List.cons_ne_nil _ _)).mpr (docClose_notInfix_concat hx)
  rw [cutComment?,ho,Option.bind_some,hc,Option.map_some]

section

variable {n : Text} (hn : IsName n)
include hn

theorem notMem_classLine {c : Char} (hc : isNameChar c = false)
    (hk : c ∉ "class ".toList ++ " \x7b\x7d".toList) : c ∉ classLine n := by
  rw [List.mem_append,not_or] at hk
  show c ∉ "class ".toList ++ (n ++ " \x7b\x7d".toList)
  rw [List.mem_append,List.mem_append,not_or,not_or]
  exact ⟨hk.1,hn.notMem hc,hk.2⟩

theorem docSpans_classUnder {x : Text} (hx : ¬ docClose <:+: x) :
    docSpans 0 (classUnder x n) = [⟨0,(docText x).length,x⟩] := by
  have hs : '/' ∉ '\n' :: classLine n := by
    simp only [List.mem_cons,not_or]
    exact ⟨by decide,notMem_classLine hn rfl (by decide)⟩
  have hnone : cutComment? ('\n' :: classLine n) = none := by
    rw [cutComment?,Option.bind_eq_none_iff]
    intro p hp
    have he := (Text.cut?_eq_some_iff.mp hp).1
    exact absurd (he ▸ by simp [docOpen]) hs
  rw [classUnder,docSpans_of_some (cutComment?_docText hx _),docSpans_of_none hnone]
  simp [docText]

theorem comment_of_lastLine (s : Text) :
    (ofText (s ++ '\n' :: classLine n)).comment ⟨n,none⟩ =
      docAbove (s ++ '\n' :: classLine n) (s.length+1) := by
  have hl : '\n' ∉ classLine n := notMem_classLine hn rfl (by decide)
  have hd : declarationsOf (s ++ '\n' :: classLine n) =
      LineScan.declarations none (Text.placed 0 s.lines) ++ [(0+s.length+1,⟨n,none⟩)] := by
    rw [declarationsOf,Text.placed_lines_append,LineScan.declarations_append,
      Text.lines_of_notMem hl]
    exact congrArg _ (LineScan.declarations_of_declaresClass (declaresClass_classLine hn) hl _)
  rw [comment_of_last hd (by simp),Nat.zero_add]

/-- The class has the comment above it, without its closing delimiter and what is blank before it. -/
theorem comment_classUnder {x : Text} (hx : ¬ docClose <:+: x) :
    (ofText (classUnder x n)).comment ⟨n,none⟩ = stored x := by
  have hh := comment_of_lastLine hn (docText x)
  change (ofText (classUnder x n)).comment ⟨n,none⟩ = docAbove (classUnder x n) _ at hh
  have hsource : classUnder x n = (docText x ++ ['\n']) ++ classLine n := by simp [classUnder]
  have htake : (classUnder x n).take ((docText x).length+1) = docText x ++ ['\n'] := by
    rw [hsource,List.take_left' (by simp)]
  have hcomment : (classUnder x n).take (docText x).length = docText x := List.take_left
  have hstop : (docText x).length ≤ (docText x).length+1 := by omega
  have hclose : docText x = (docOpen ++ x) ++ docClose := by simp [docText]
  rw [hh,docAbove,docSpans_classUnder hn hx]
  simp only [List.reverse_singleton,List.find?_singleton,hstop,decide_true,if_true,htake,
    List.drop_left,hcomment,List.drop_zero]
  rw [if_pos (by decide),hclose,stripClosing_append,stored]

end

end SourceIndex
end DocTags
