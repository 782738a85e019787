import DocTags.Proofs.LineWords

/-! Declarations never leave their line: what stands behind a line feed changes neither whether a
pattern matches nor what it captures. -/
namespace DocTags

namespace SourcePattern

theorem skipGap_append (l t : Text) : skipGap (l ++ '\n' :: t) = skipGap l ++ '\n' :: t :=
  Text.dropWhile_append_lineFeed rfl l t

theorem gap?_append (l t : Text) : gap? (l ++ '\n' :: t) = (gap? l).map (· ++ '\n' :: t) := by
  cases l with
  | nil => rfl
  | cons c l => by_cases hc : isGap c = true <;> simp [gap?,hc,skipGap_append]

theorem name?_append (l t : Text) :
    name? (l ++ '\n' :: t) = (name? l).map fun m => (m.1,m.2 ++ '\n' :: t) := by
  cases l with
  | nil => rfl
  | cons c l =>
    have ht := Text.takeWhile_append_lineFeed (p := isNameChar) rfl l t
    have hd := Text.dropWhile_append_lineFeed (p := isNameChar) rfl l t
    by_cases hc : isNameStart c = true <;> simp [name?,hc,ht,hd]

theorem isPrefixOf?_append {w : Text} (h : '\n' ∉ w) (l t : Text) :
    w.isPrefixOf? (l ++ '\n' :: t) = (w.isPrefixOf? l).map (· ++ '\n' :: t) := by
  induction w generalizing l with
  | nil => rfl
  | cons c w ih =>
    simp only [List.mem_cons,not_or] at h
    cases l with
    | nil => simp [List.isPrefixOf?,Ne.symm h.1]
    | cons d l => by_cases hc : c = d <;> simp [List.isPrefixOf?,hc,ih h.2]

theorem findSome?_append {ws : List Text} (h : ∀ w ∈ ws, '\n' ∉ w) (l t : Text) :
    ws.findSome? (·.isPrefixOf? (l ++ '\n' :: t)) =
      (ws.findSome? (·.isPrefixOf? l)).map (· ++ '\n' :: t) := by
  induction ws with
  | nil => rfl
  | cons w ws ih =>
    have hw := isPrefixOf?_append (h w (by simp)) l t
    have hh := ih fun w hw => h w (by simp [hw])
    cases ho : w.isPrefixOf? l with
    | none => simp [hw,ho,hh]
    | some r => simp [hw,ho]

theorem word?_append {ws : List Text} (hw : WordSet ws) (l t : Text) :
    word? ws (l ++ '\n' :: t) = (word? ws l).map (· ++ '\n' :: t) := by
  rw [word?,findSome?_append hw.noLineFeed,word?]
  cases ws.findSome? (·.isPrefixOf? l) with
  | none => rfl
  | some r => exact gap?_append r t

theorem skipWords_append {ws : List Text} (hw : WordSet ws) (n : Nat) (l t : Text) :
    skipWords ws n (l ++ '\n' :: t) = skipWords ws n l ++ '\n' :: t := by
  induction n generalizing l with
  | zero => rfl
  | succ n ih =>
    rw [skipWords,word?_append hw,skipWords]
    cases word? ws l with
    | none => rfl
    | some r => exact ih r

theorem header?_append {modifiers keywords : List Text} (hm : WordSet modifiers)
    (hk : WordSet keywords) (l t : Text) :
    header? modifiers keywords (l ++ '\n' :: t) =
      (header? modifiers keywords l).map (· ++ '\n' :: t) := by
  have hl : lineLength (l ++ '\n' :: t) = lineLength l := by
    rw [lineLength,Text.takeWhile_append_lineFeed (by simp),lineLength]
  rw [header?,hl,skipGap_append,skipWords_append hm,word?_append hk,header?]

theorem afterAmpersand_append (l t : Text) :
    afterAmpersand l ++ '\n' :: t = afterAmpersand (l ++ '\n' :: t) := by
  cases l with
  | nil => rfl
  | cons c l =>
    by_cases hc : c = '&'
    · subst hc
      exact (skipGap_append l t).symm
    · simp [afterAmpersand,hc]

theorem skipGap_suffix (s : Text) : skipGap s <:+ s := List.dropWhile_suffix isGap

theorem word?_suffix {ws : List Text} (hw : WordSet ws) {s r : Text} (h : word? ws s = some r) :
    r <:+ s := by
  rw [word?_eq hw] at h
  split at h
  · rw [← Option.some.inj h]
    exact (skipGap_suffix _).trans (List.dropWhile_suffix _)
  · cases h

theorem skipWords_suffix {ws : List Text} (hw : WordSet ws) (n : Nat) (s : Text) :
    skipWords ws n s <:+ s := by
  induction n generalizing s with
  | zero => exact List.suffix_refl s
  | succ n ih =>
    rw [skipWords]
    cases ho : word? ws s with
    | none => exact List.suffix_refl s
    | some r => exact (ih r).trans (word?_suffix hw ho)

theorem header?_suffix {modifiers keywords : List Text} (hm : WordSet modifiers)
    (hk : WordSet keywords) {s r : Text} (h : header? modifiers keywords s = some r) : r <:+ s :=
  (word?_suffix hk h).trans ((skipWords_suffix hm _ _).trans (skipGap_suffix s))

theorem name?_suffix {s : Text} {m : Text × Text} (h : name? s = some m) : m.2 <:+ s := by
  cases s with
  | nil => cases h
  | cons c r =>
    by_cases hc : isNameStart c = true
    · simp only [name?,hc,if_true,Option.some.injEq] at h
      rw [← h]
      exact (List.dropWhile_suffix _).trans (List.suffix_cons c r)
    · simp [name?,hc] at h

theorem afterAmpersand_suffix (s : Text) : afterAmpersand s <:+ s := by
  unfold afterAmpersand
  split
  · exact (skipGap_suffix _).trans (List.suffix_cons _ _)
  · exact List.suffix_refl _

/-- A class declaration ends in the line that it starts. -/
theorem linePattern_classDeclaration : LinePattern classDeclaration where
  anchored := fun s => rfl
  inLine := by
    intro l t _
    rw [classDeclaration_eq,classDeclaration_eq,
      header?_append wordSet_classModifiers wordSet_classKeywords l t]
    cases header? classModifiers classKeywords l with
    | none => rfl
    | some r => exact name?_append r t
  notEmpty := rfl
  shorter := by
    intro l m h
    rw [classDeclaration_eq] at h
    obtain ⟨r,hr,hm⟩ := Option.bind_eq_some_iff.mp h
    have hs := header?_suffix wordSet_classModifiers wordSet_classKeywords hr
    exact ((name?_suffix hm).trans hs).length_le

/-- A function declaration ends in the line that it starts. -/
theorem linePattern_functionDeclaration : LinePattern functionDeclaration where
  anchored := fun s => rfl
  inLine := by
    intro l t _
    rw [functionDeclaration_eq,functionDeclaration_eq,
      header?_append wordSet_functionModifiers wordSet_functionKeywords l t]
    cases header? functionModifiers functionKeywords l with
    | none => rfl
    | some r =>
      have ha := afterAmpersand_append r t
      simp only [Option.map_some,Option.bind_some,← ha]
      exact name?_append _ t
  notEmpty := rfl
  shorter := by
    intro l m h
    rw [functionDeclaration_eq] at h
    obtain ⟨r,hr,hm⟩ := Option.bind_eq_some_iff.mp h
    have hs := header?_suffix wordSet_functionModifiers wordSet_functionKeywords hr
    exact ((name?_suffix hm).trans ((afterAmpersand_suffix r).trans hs)).length_le

theorem linePattern_classEnd : LinePattern classEnd where
  anchored := by
    intro s
    unfold classEnd
    split <;> rfl
  inLine := by
    intro l t _
    cases l with
    | nil => rfl
    | cons c l => by_cases hc : c = '\x7d' <;> simp [classEnd,hc]
  notEmpty := rfl
  shorter := by
    intro l m h
    cases l with
    | nil => cases h
    | cons c l =>
      by_cases hc : c = '\x7d'
      · simp only [classEnd,hc,if_true,Option.some.injEq] at h
        rw [← h]
        exact Nat.le_succ _
      · simp [classEnd,hc] at h

end SourcePattern
end DocTags
