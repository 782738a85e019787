import DocTags.ValueReader
import Mathlib.Data.List.Basic

/-! The texts that annotation texts denote. A text is read from a quoted one or stands for itself, and
a quoted text without escapes holds what it is written with; so only an escape brings a line feed into
what is read from one line. -/
namespace DocTags

namespace QuotedText

theorem read?_control {c : Char} (r : Text) (h : c ≠ '"') (h' : c ≠ '\\') (h'' : c.toNat < 0x20) :
    read? (c :: r) = none := by
  rw [read?]
  · rw [if_pos (Or.inr h'')]
  all_goals intros; simp_all

theorem lineFeed_notMem_of_read? {s t r : Text} (hs : '\\' ∉ s) (h : read? s = some (t,r)) :
    '\n' ∉ t := by
  induction s generalizing t r with
  | nil => cases h
  | cons c s ih =>
    simp only [List.mem_cons,not_or] at hs
    by_cases hq : c = '"'
    · subst hq
      obtain ⟨rfl,-⟩ := Prod.mk.inj (Option.some.inj ((rfl : some ([],s) = _).trans h))
      simp
    · rcases Nat.lt_or_ge c.toNat 0x20 with hc | hc
      · rw [read?_control s hq (Ne.symm hs.1) hc] at h
        cases h
      · rw [read?_plain s hq (Ne.symm hs.1) hc] at h
        obtain ⟨⟨u,v⟩,hu,he⟩ := Option.map_eq_some_iff.mp h
        obtain ⟨rfl,-⟩ := Prod.mk.inj he
        have hne : '\n' ≠ c := by
          rintro rfl
          revert hc
          decide
        simpa [hne] using ih hs.2 hu

end QuotedText

namespace NumberText

inductive IsNumber : Value → Prop
  | int (n : Int) : IsNumber (.int n)
  | float (x : Float) : IsNumber (.float x)

theorem isNumber_ofWhole (negative : Bool) (n : Nat) : IsNumber (ofWhole negative n) := by
  unfold ofWhole
  split
  · split
    · exact .int _
    · exact .float _
  · exact .int _

theorem isNumber_of_ofScientific? {negative : Bool} {n : Nat} {e : Int} {v : Value}
    (h : ofScientific? negative n e = some v) : IsNumber v := by
  obtain ⟨x,-,rfl⟩ := Option.map_eq_some_iff.mp h
  exact .float _

theorem isNumber_of_withExponent? {negative minus : Bool} {n : Nat} {e : Int} {digits : Text}
    {v : Value} (h : withExponent? negative n e minus digits = some v) : IsNumber v := by
  unfold withExponent? at h
  simp only at h
  split at h
  · cases h
  · split at h
    · exact isNumber_of_ofScientific? h
    · split at h
      · cases h
      · obtain rfl := Option.some.inj h
        exact .float _

section

variable {negative : Bool} {n : Nat} {e : Int} {s r : Text} {v : Value}

theorem isNumber_of_readExponent? {whole : Option Value} (hw : ∀ v, whole = some v → IsNumber v)
    (h : readExponent? negative n e whole s = some (v,r)) : IsNumber v := by
  have hwhole {t : Text} (h : whole.map (·,t) = some (v,r)) : IsNumber v := by
    obtain ⟨w,hv,he⟩ := Option.map_eq_some_iff.mp h
    obtain ⟨rfl,-⟩ := Prod.mk.inj he
    exact hw w hv
  unfold readExponent? at h
  split at h
  · split at h
    · obtain ⟨w,hv,he⟩ := Option.map_eq_some_iff.mp h
      obtain ⟨rfl,-⟩ := Prod.mk.inj he
      exact isNumber_of_withExponent? hv
    · exact hwhole h
  · exact hwhole h

theorem isNumber_of_readUnsigned? (h : readUnsigned? negative s = some (v,r)) : IsNumber v := by
  unfold readUnsigned? at h
  simp only at h
  split at h
  · cases h
  · split at h
    · split at h
      · cases h
      · exact isNumber_of_readExponent? (fun w hw => isNumber_of_ofScientific? hw) h
    · refine isNumber_of_readExponent? (fun w hw => ?_) h
      split at hw
      · exact Option.some.inj hw ▸ isNumber_ofWhole _ _
      · exact isNumber_of_ofScientific? hw

theorem isNumber_of_read? (h : read? s = some (v,r)) : IsNumber v := by
  unfold read? at h
  split at h <;> exact isNumber_of_readUnsigned? h

end

end NumberText

namespace ValueReader

theorem exists_quoted_of_readValue? {fuel depth : Nat} {s t r : Text}
    (h : readValue? fuel depth s = some (.string t,r)) :
    ∃ u, skipSpace s = '"' :: u ∧ QuotedText.read? u = some (t,r) := by
  cases fuel with
  | zero => cases h
  | succ fuel =>
    rw [readValue?] at h
    split at h
    · cases h
    · cases h
    · cases h
    · rename_i u hu
      obtain ⟨⟨t',r'⟩,hq,he⟩ := Option.map_eq_some_iff.mp h
      obtain ⟨ht,rfl⟩ := Prod.mk.inj he
      obtain rfl := Value.string.inj ht
      exact ⟨u,hu,hq⟩
    · split at h
      · cases h
      · split at h
        · cases h
        · simp [Option.bind_eq_some_iff] at h
    · split at h
      · cases h
      · split at h
        · cases h
        · simp [Option.bind_eq_some_iff] at h
        · cases h
    · cases NumberText.isNumber_of_read? h

end ValueReader

namespace Value

/-- A text that an annotation text denotes is that text itself or is read from a quoted one. -/
theorem ofText_eq_string {raw t : Text} (h : ofText raw = string t) :
    t = raw ∨ ∃ u r, ValueReader.skipSpace raw = '"' :: u ∧ QuotedText.read? u = some (t,r) := by
  unfold ofText at h
  split at h
  · cases h
  · split at h
    · exact Or.inl (string.inj h).symm
    · exact Or.inl (string.inj h).symm
    · rename_i v hv hd
      subst h
      unfold decode? at hd
      split at hd
      · rename_i w r hr
        split at hd
        · obtain rfl := Option.some.inj hd
          obtain ⟨u,hu,hq⟩ := ValueReader.exists_quoted_of_readValue? hr
          exact Or.inr ⟨u,r,hu,hq⟩
        · cases hd
      · cases hd

/-- A line denotes a text with a line feed only through an escape. -/
theorem backslash_mem_of_ofText {raw t : Text} (h : ofText raw = string t) (hraw : '\n' ∉ raw)
    (ht : '\n' ∈ t) : '\\' ∈ raw := by
  rcases ofText_eq_string h with rfl | ⟨u,r,hu,hq⟩
  · exact absurd ht hraw
  · by_contra hs
    have hsuffix : '"' :: u <:+ raw := hu ▸ List.dropWhile_suffix _
    have hu' : '\\' ∉ u := fun hm => hs (hsuffix.subset (List.mem_cons_of_mem _ hm))
    exact QuotedText.lineFeed_notMem_of_read? hu' hq ht

end Value
end DocTags
