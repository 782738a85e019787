import DocTags.Proofs.DeclarationGrammar

/-! Where the declaration of a line ends. A character that is no blank, no part of a name and no mark
with a meaning stops it: what a line declares stands before the first such character. -/
namespace DocTags
namespace SourcePattern

/-- A character behind which a line declares nothing. -/
def isStop (c : Char) : Bool :=
  !isGap c && !isNameChar c && c != '&' && c != '\x7d' && c != '\n'

theorem exists_of_append_cons {c : Char} {l t u r : Text} (h : l ++ c :: t = u ++ r) (hu : c ∉ u) :
    ∃ v, r = v ++ c :: t ∧ l = u ++ v := by
  rcases List.append_eq_append_iff.mp h with ⟨v,rfl,hv⟩ | ⟨v,rfl,hv⟩
  · cases v with
    | nil => exact ⟨[],hv.symm,by simp⟩
    | cons d v =>
      obtain ⟨rfl,-⟩ := List.cons.inj hv
      simp at hu
  · exact ⟨v,hv,rfl⟩

section

variable {c : Char} (hc : isStop c = true)
include hc

theorem isGap_of_isStop : isGap c = false := by
  simp only [isStop,Bool.and_eq_true,Bool.not_eq_true'] at hc
  exact hc.1.1.1.1

theorem isNameChar_of_isStop : isNameChar c = false := by
  simp only [isStop,Bool.and_eq_true,Bool.not_eq_true'] at hc
  exact hc.1.1.1.2

theorem ne_ampersand_of_isStop : c ≠ '&' := by
  rintro rfl
  exact absurd hc (by decide)

theorem ne_brace_of_isStop : c ≠ '\x7d' := by
  rintro rfl
  exact absurd hc (by decide)

theorem ne_lineFeed_of_isStop : c ≠ '\n' := by
  rintro rfl
  exact absurd hc (by decide)

theorem Blanks.stop_notMem {g : Text} (hg : Blanks g) : c ∉ g := by
  intro hm
  have hn := isGap_of_isStop hc
  rw [hg c hm] at hn
  cases hn

theorem Modified.stop_notMem {ws : List Text} (hws : ∀ w ∈ ws, c ∉ w) {m : Text}
    (hm : Modified ws m) : c ∉ m := by
  induction hm with
  | done => simp
  | more hw hg hn hm ih =>
    simp only [List.mem_append,not_or]
    exact ⟨hws _ hw,hg.stop_notMem hc,ih⟩

theorem stop_notMem_words {ws : List Text} (hws : ws.all (·.all isNameChar) = true) :
    ∀ w ∈ ws, c ∉ w := by
  intro w hw hm
  have hn := isNameChar_of_isStop hc
  rw [List.all_eq_true.mp (List.all_eq_true.mp hws w hw) c hm] at hn
  cases hn

variable {l t : Text}

theorem flush_append_iff : Flush (l ++ c :: t) ↔ Flush l := by
  cases l with
  | nil => simp [Flush,isGap_of_isStop hc]
  | cons d l => simp [Flush]

/-- Modifiers and keywords stand before the character, so it belongs to the rest of the line. -/
theorem headed_append_iff {ms ks : List Text} (hms : ∀ w ∈ ms, c ∉ w) (hks : ∀ w ∈ ks, c ∉ w)
    {rest : Text} : Headed ms ks (l ++ c :: t) rest ↔ ∃ v, rest = v ++ c :: t ∧ Headed ms ks l v := by
  constructor
  · rintro ⟨b,m,k,g,h,hb,hm,hk,hg,hn,hf⟩
    have hu : c ∉ b ++ (m ++ (k ++ g)) := by
      simp only [List.mem_append,not_or]
      exact ⟨hb.stop_notMem hc,hm.stop_notMem hc hms,hks k hk,hg.stop_notMem hc⟩
    have h' : l ++ c :: t = (b ++ (m ++ (k ++ g))) ++ rest := by simpa using h
    obtain ⟨v,rfl,rfl⟩ := exists_of_append_cons h' hu
    exact ⟨v,rfl,b,m,k,g,by simp,hb,hm,hk,hg,hn,(flush_append_iff hc).mp hf⟩
  · rintro ⟨v,rfl,b,m,k,g,rfl,hb,hm,hk,hg,hn,hf⟩
    exact ⟨b,m,k,g,by simp,hb,hm,hk,hg,hn,(flush_append_iff hc).mpr hf⟩

theorem names_append_iff {n : Text} : Names (l ++ c :: t) n ↔ Names l n := by
  constructor
  · rintro ⟨hn,rest,h,hrest⟩
    obtain ⟨v,rfl,rfl⟩ := exists_of_append_cons h (hn.notMem (isNameChar_of_isStop hc))
    refine ⟨hn,v,rfl,fun d hd => hrest d ?_⟩
    rw [List.head?_append,hd]
    rfl
  · rintro ⟨hn,rest,rfl,hrest⟩
    refine ⟨hn,rest ++ c :: t,by simp,fun d hd => ?_⟩
    cases rest with
    | nil =>
      obtain rfl : c = d := by simpa using hd
      exact isNameChar_of_isStop hc
    | cons e rest => exact hrest d hd

theorem declaresClass_append_iff {n : Text} : DeclaresClass (l ++ c :: t) n ↔ DeclaresClass l n := by
  have hms : ∀ w ∈ classModifiers, c ∉ w := stop_notMem_words hc rfl
  have hks : ∀ w ∈ classKeywords, c ∉ w := stop_notMem_words hc rfl
  simp only [DeclaresClass,headed_append_iff hc hms hks]
  constructor
  · rintro ⟨-,⟨v,rfl,hv⟩,hn⟩
    exact ⟨v,hv,(names_append_iff hc).mp hn⟩
  · rintro ⟨v,hv,hn⟩
    exact ⟨v ++ c :: t,⟨v,rfl,hv⟩,(names_append_iff hc).mpr hn⟩

theorem exists_ampersand_append_iff {f : Text} :
    (∃ b r, l ++ c :: t = '&' :: (b ++ r) ∧ Blanks b ∧ Names r f) ↔
      ∃ b r, l = '&' :: (b ++ r) ∧ Blanks b ∧ Names r f := by
  constructor
  · rintro ⟨b,r,h,hb,hn⟩
    have hu : c ∉ '&' :: b := by
      simp only [List.mem_cons,not_or]
      exact ⟨ne_ampersand_of_isStop hc,hb.stop_notMem hc⟩
    have h' : l ++ c :: t = ('&' :: b) ++ r := h
    obtain ⟨v,rfl,rfl⟩ := exists_of_append_cons h' hu
    exact ⟨b,v,rfl,hb,(names_append_iff hc).mp hn⟩
  · rintro ⟨b,r,rfl,hb,hn⟩
    exact ⟨b,r ++ c :: t,by simp,hb,(names_append_iff hc).mpr hn⟩

theorem declaresFunction_append_iff {f : Text} :
    DeclaresFunction (l ++ c :: t) f ↔ DeclaresFunction l f := by
  have hms : ∀ w ∈ functionModifiers, c ∉ w := stop_notMem_words hc rfl
  have hks : ∀ w ∈ functionKeywords, c ∉ w := stop_notMem_words hc rfl
  simp only [DeclaresFunction,headed_append_iff hc hms hks]
  constructor
  · rintro ⟨-,⟨v,rfl,hv⟩,hn⟩
    exact ⟨v,hv,hn.imp (names_append_iff hc).mp (exists_ampersand_append_iff hc).mp⟩
  · rintro ⟨v,hv,hn⟩
    exact ⟨v ++ c :: t,⟨v,rfl,hv⟩,
      hn.imp (names_append_iff hc).mpr (exists_ampersand_append_iff hc).mpr⟩

end

end SourcePattern

namespace LineScan

open SourcePattern SourceIndex

/-- What stands behind a stop in a line does not change what the line declares. -/
theorem landmark?_append_stop {c : Char} (hc : isStop c = true) {l t : Text} (hl : '\n' ∉ l)
    (ht : '\n' ∉ t) : landmark? (l ++ c :: t) = landmark? l := by
  have hn : '\n' ∉ l ++ c :: t := by
    simp only [List.mem_append,List.mem_cons,not_or]
    exact ⟨hl,(ne_lineFeed_of_isStop hc).symm,ht⟩
  apply Option.ext
  intro m
  cases m with
  | classDeclaration n =>
    rw [landmark?_eq_classDeclaration_iff hn,landmark?_eq_classDeclaration_iff hl,
      declaresClass_append_iff hc]
  | functionDeclaration f =>
    rw [landmark?_eq_functionDeclaration_iff hn,landmark?_eq_functionDeclaration_iff hl,
      declaresFunction_append_iff hc]
  | classEnd =>
    rw [landmark?_eq_classEnd_iff,landmark?_eq_classEnd_iff]
    cases l with
    | nil => simp [ne_brace_of_isStop hc]
    | cons d l => rfl

theorem landmark?_of_blanks {l : Text} (h : Blanks l) : landmark? l = none := by
  have hn : '\n' ∉ l := fun hm => absurd (h '\n' hm) (by decide)
  have hword {ms ks : List Text} (hk : WordSet ks) (rest : Text) : ¬ Headed ms ks l rest := by
    rintro ⟨b,m,k,g,rfl,-,-,hkm,-⟩
    cases k with
    | nil => exact hk.notEmpty hkm
    | cons d k =>
      have hd := h d (by simp)
      rw [hk.noGap _ hkm d (by simp)] at hd
      cases hd
  refine (landmark?_eq_none_iff hn).mpr ⟨fun c hc => ?_,fun f hf => ?_,fun hb => ?_⟩
  · obtain ⟨rest,hr,-⟩ := hc
    exact hword wordSet_classKeywords rest hr
  · obtain ⟨rest,hr,-⟩ := hf
    exact hword wordSet_functionKeywords rest hr
  · exact absurd (h _ (List.mem_of_head? hb)) (by decide)

theorem landmark?_of_stop {l : Text} (hl : '\n' ∉ l)
    (h : ∀ c t, skipGap l = c :: t → isStop c = true) : landmark? l = none := by
  obtain ⟨b,hs,hb⟩ := exists_blanks l
  cases hg : skipGap l with
  | nil =>
    rw [hg,List.append_nil] at hs
    exact hs ▸ landmark?_of_blanks hb
  | cons c t =>
    rw [hs,hg] at hl ⊢
    simp only [List.mem_append,List.mem_cons,not_or] at hl
    rw [landmark?_append_stop (h c t hg) hl.1 hl.2.2,landmark?_of_blanks hb]

end LineScan
end DocTags
