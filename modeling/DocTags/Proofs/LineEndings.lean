import DocTags.Proofs.Cuts
import DocTags.Proofs.Lines

/-! Texts with a carriage return before every line feed. What is cut out of such a text, trimmed off it
or judged line by line is the same as in the text with line feeds alone. -/
namespace DocTags
namespace Text

/-- The text with a carriage return before every line feed. -/
def crlf (s : Text) : Text := s.flatMap fun c => if c = '\n' then ['\r','\n'] else [c]

@[simp] theorem crlf_nil : crlf [] = [] := rfl

theorem crlf_lineFeed (r : Text) : crlf ('\n' :: r) = '\r' :: '\n' :: crlf r := rfl

theorem crlf_cons {c : Char} (h : c ≠ '\n') (r : Text) : crlf (c :: r) = c :: crlf r := by
  simp [crlf,h]

@[simp] theorem crlf_append (s t : Text) : crlf (s ++ t) = crlf s ++ crlf t := List.flatMap_append

theorem crlf_of_notMem {l : Text} (h : '\n' ∉ l) : crlf l = l := by
  induction l with
  | nil => rfl
  | cons c l ih =>
    simp only [List.mem_cons,not_or] at h
    rw [crlf_cons (Ne.symm h.1),ih h.2]

theorem crlf_line {l : Text} (h : '\n' ∉ l) (t : Text) :
    crlf (l ++ '\n' :: t) = (l ++ ['\r']) ++ '\n' :: crlf t := by
  rw [crlf_append,crlf_of_notMem h,crlf_lineFeed]
  simp

theorem length_crlf (s : Text) : (crlf s).length = s.length+s.count '\n' := by
  induction s with
  | nil => rfl
  | cons c s ih =>
    by_cases h : c = '\n'
    · subst h
      simp only [crlf_lineFeed,List.length_cons,ih,List.count_cons_self]
      omega
    · simp only [crlf_cons h,List.length_cons,ih,List.count_cons_of_ne h]
      omega

theorem length_crlf_le_iff {s u v : Text} (hu : u <+: s) (hv : v <+: s) :
    (crlf u).length ≤ (crlf v).length ↔ u.length ≤ v.length := by
  rcases List.prefix_or_prefix_of_prefix hu hv with ⟨w,rfl⟩ | ⟨w,rfl⟩
  · simp
  · have hw := length_crlf w
    simp only [crlf_append,List.length_append]
    have hn : w.length = 0 → w.count '\n' = 0 := fun h => by
      rw [List.length_eq_zero_iff.mp h]
      rfl
    omega

section

variable {sep : Text} (hr : '\r' ∉ sep) (hn : '\n' ∉ sep)
include hr hn

theorem isPrefixOf?_crlf (s : Text) : sep.isPrefixOf? (crlf s) = (sep.isPrefixOf? s).map crlf := by
  induction sep generalizing s with
  | nil => simp [List.isPrefixOf?]
  | cons d sep ih =>
    simp only [List.mem_cons,not_or] at hr hn
    have hh := ih hr.2 hn.2
    cases s with
    | nil => rfl
    | cons c s =>
      by_cases hc : c = '\n'
      · subst hc
        simp [crlf_lineFeed,List.isPrefixOf?,Ne.symm hr.1,Ne.symm hn.1]
      · rw [crlf_cons hc,List.isPrefixOf?,List.isPrefixOf?,hh]
        split <;> rfl

theorem cut?_crlf (hne : sep ≠ []) (s : Text) :
    cut? sep (crlf s) = (cut? sep s).map fun p => (crlf p.1,crlf p.2) := by
  induction s with
  | nil => simp [cut?,hne]
  | cons c s ih =>
    have hp := isPrefixOf?_crlf hr hn (c :: s)
    by_cases hc : c = '\n'
    · subst hc
      obtain ⟨d,sep,rfl⟩ := List.exists_cons_of_ne_nil hne
      simp only [List.mem_cons,not_or] at hr hn
      have hr' := beq_false_of_ne (Ne.symm hr.1)
      have hn' := beq_false_of_ne (Ne.symm hn.1)
      simp only [crlf_lineFeed,cut?,List.isPrefixOf?,hr',hn',ih]
      cases cut? (d :: sep) s <;> rfl
    · rw [crlf_cons hc] at hp ⊢
      rw [cut?,cut?,hp,ih]
      cases sep.isPrefixOf? (c :: s) with
      | some rest => rfl
      | none => cases cut? sep s <;> simp [crlf_cons hc]

end

theorem trimEnd_crlf {p : Char → Bool} (hr : p '\r' = true) (hn : p '\n' = true) (s : Text) :
    trimEnd p (crlf s) = crlf (trimEnd p s) := by
  obtain ⟨t,hs,ht,hl⟩ := trimEnd_eq_iff.mp (rfl : trimEnd p s = trimEnd p s)
  refine trimEnd_eq_iff.mpr ⟨crlf t,?_,?_,?_⟩
  · rw [← crlf_append,← hs]
  · intro c hc
    obtain ⟨d,hd,hc⟩ := List.mem_flatMap.mp hc
    split at hc
    · simp only [List.mem_cons,List.not_mem_nil,or_false] at hc
      rcases hc with rfl | rfl
      exacts [hr,hn]
    · rw [List.mem_singleton.mp hc]
      exact ht d hd
  · intro c hc
    rcases List.eq_nil_or_concat' (trimEnd p s) with hb | ⟨b,d,hb⟩
    · rw [hb] at hc
      cases hc
    · have hd := hl d (by rw [hb]; simp)
      have hne : d ≠ '\n' := by
        rintro rfl
        rw [hn] at hd
        cases hd
      rw [hb,crlf_append,crlf_cons hne] at hc
      obtain rfl : d = c := by simpa using hc
      exact hd

/-- A test that passes over a carriage return at the end of a line passes over line ends. -/
theorem all_lines_crlf {q : Text → Bool} (hq : ∀ l, q (l ++ ['\r']) = q l) (s : Text) :
    (lines (crlf s)).all q = (lines s).all q := by
  induction s using line_induction with
  | last l hl => rw [crlf_of_notMem hl]
  | line l t hl ih =>
    have hl' : '\n' ∉ l ++ ['\r'] := by simp [hl]
    rw [crlf_line hl,lines_append_lineFeed hl,lines_append_lineFeed hl',List.all_cons,List.all_cons,
      ih,hq]

theorem trim_append_return (l : Text) : trim (l ++ ['\r']) = trim l := by
  rw [trim,trim,List.dropWhile_append]
  split
  · rename_i h
    rw [List.isEmpty_iff.mp h]
    rfl
  · rw [trimEnd_append_singleton]
    rfl

end Text
end DocTags
