import DocTags.Proofs.Cuts
import DocTags.Reference

/-! References and their texts. A printed reference is read back exactly if the separator that was
printed is the first one in the text and the names have no white space at their ends. -/
namespace DocTags
namespace Reference

theorem separator_infix_concat_iff {c : Text} :
    separator <:+: c ++ [':'] ↔ c.getLast? = some ':' ∨ separator <:+: c := by
  have hs : separator <:+ c ++ [':'] ↔ [':'] <:+ c := by
    rw [List.suffix_concat_iff]
    constructor
    · rintro (h | ⟨t,ht,hc⟩)
      · cases h
      · have h : [':'] = t := List.append_cancel_right ht
        exact h ▸ hc
    · exact fun h => Or.inr ⟨[':'],rfl,h⟩
  rw [List.infix_concat_iff,hs,List.singleton_suffix_iff_getLast?_eq_some]

/-- The first separator of a printed method is the printed one, unless the class holds one or ends in
half of one. -/
theorem cut?_separator_append_iff {c m : Text} :
    Text.cut? separator (c ++ separator ++ m) = some (c,m) ↔
      ¬ separator <:+: c ∧ c.getLast? ≠ some ':' := by
  have hne : separator ≠ [] := List.cons_ne_nil _ _
  have hd : separator.dropLast = [':'] := rfl
  rw [List.append_assoc,Text.cut?_append_separator_iff hne,hd,separator_infix_concat_iff,not_or,
    and_comm]

theorem ofText_of_cut {s c m : Text} (h : Text.cut? separator s = some (c,m)) :
    ofText s = ⟨c.trim,some m.trim⟩ := by
  rw [ofText,h]

theorem ofText_of_cut_none {s : Text} (h : Text.cut? separator s = none) :
    ofText s = ⟨s.trim,none⟩ := by
  rw [ofText,h]

theorem ofText_toText_class_iff {c : Text} :
    ofText (toText ⟨c,none⟩) = ⟨c,none⟩ ↔ Text.Trimmed c ∧ ¬ separator <:+: c := by
  rw [toText,Text.notInfix_iff_cut?,← Text.trim_eq_self_iff]
  cases hc : Text.cut? separator c with
  | none => simp [ofText_of_cut_none hc]
  | some p => simp [ofText_of_cut hc]

theorem ofText_toText_method_iff {c m : Text} :
    ofText (toText ⟨c,some m⟩) = ⟨c,some m⟩ ↔
      Text.Trimmed c ∧ ¬ separator <:+: c ∧ Text.Trimmed m ∧ c.getLast? ≠ some ':' := by
  rw [toText,← Text.trim_eq_self_iff,← Text.trim_eq_self_iff]
  constructor
  · intro h
    cases hcut : Text.cut? separator (c ++ separator ++ m) with
    | none =>
      rw [ofText_of_cut_none hcut,mk.injEq] at h
      cases h.2
    | some p =>
      obtain ⟨a,b⟩ := p
      rw [ofText_of_cut hcut,mk.injEq,Option.some.injEq] at h
      obtain ⟨rfl,rfl⟩ := h
      obtain ⟨hs,hfirst⟩ := Text.cut?_eq_some_iff.mp hcut
      have hlen : a.trim.length = a.length :=
        Nat.le_antisymm a.length_trim_le (hfirst a.trim b.trim (List.append_assoc ..))
      rw [List.append_assoc] at hs
      obtain ⟨ha,hrest⟩ := List.append_inj hs hlen
      have hb : b.trim = b := List.append_cancel_left hrest
      rw [ha,hb] at hcut
      obtain ⟨hn,hl⟩ := cut?_separator_append_iff.mp hcut
      rw [ha,hb]
      exact ⟨ha,hn,hb,hl⟩
  · rintro ⟨hc,hn,hm,hl⟩
    rw [ofText_of_cut (cut?_separator_append_iff.mpr ⟨hn,hl⟩),hc,hm]

/-- Exactly those references are read back from their texts whose names are trimmed, whose class holds no
separator and, before a method, does not end in half of one. -/
theorem ofText_toText_eq_self_iff (r : Reference) :
    ofText r.toText = r ↔ Text.Trimmed r.className ∧ ¬ separator <:+: r.className ∧
      ∀ m, r.method = some m → Text.Trimmed m ∧ r.className.getLast? ≠ some ':' := by
  obtain ⟨c,m⟩ := r
  cases m with
  | none => simp [ofText_toText_class_iff]
  | some m => simp [ofText_toText_method_iff]

example : ofText (toText ⟨['A',':'],some ['b']⟩) = ⟨['A'],some [':','b']⟩ := by decide

end Reference
end DocTags
