import DocTags.NumberText
import DocTags.Proofs.Cuts

/-! Whole numbers of a machine word. Their digits hold no needless zero and fit the significand, so
reading a written number gives it back. -/
namespace DocTags
namespace NumberText

def fitsWord (n : Int) : Bool := -(Nat.pow 2 63 : Nat) ≤ n && n < (wordLimit : Nat)

/-- What follows does not go on a number. -/
def EndsNumber (s : Text) : Prop :=
  ∀ c, s.head? = some c → c.isDigit = false ∧ c ≠ '.' ∧ c ≠ 'e' ∧ c ≠ 'E'

theorem isDigit_of_mem_toDigits {n : Nat} {c : Char} (h : c ∈ Nat.toDigits 10 n) :
    c.isDigit = true :=
  Nat.isDigit_of_mem_toDigits (by omega) (by omega) h

theorem eq_zero_of_head?_toDigits {n : Nat} (h : (Nat.toDigits 10 n).head? = some '0') : n = 0 := by
  induction n using Nat.strongRecOn with
  | ind n ih =>
    by_cases hn : n < 10
    · simpa [Nat.toDigits_of_lt_base hn] using h
    · have hd := Nat.toDigits_of_base_le (b := 10) (by omega) (Nat.not_lt.mp hn)
      have hh : (Nat.toDigits 10 (n/10)).head? = some '0' := by
        cases hc : Nat.toDigits 10 (n/10) with
        | nil => exact absurd hc Nat.toDigits_ne_nil
        | cons c cs => simpa [hd,hc] using h
      have hz := ih (n/10) (by omega) hh
      omega

theorem le_ofDigitChars (ds : Text) (m : Nat) : m ≤ Nat.ofDigitChars 10 ds m := by
  induction ds generalizing m with
  | nil => simp
  | cons d ds ih =>
    have hh := ih (10*m+(d.toNat - '0'.toNat))
    rw [Nat.ofDigitChars_cons]
    omega

/-- Digits whose number stays below the limit all go into the significand. -/
theorem append_eq {m : Nat} {ds : Text} (h : Nat.ofDigitChars 10 ds m < wordLimit) :
    append m ds = (Nat.ofDigitChars 10 ds m,[]) := by
  induction ds generalizing m with
  | nil => simp [append]
  | cons d ds ih =>
    have hm : m*10+digitValue d = 10*m+(d.toNat - '0'.toNat) := by
      rw [Nat.mul_comm,digitValue]
    rw [Nat.ofDigitChars_cons] at h ⊢
    have hl : m*10+digitValue d < wordLimit := by
      have hh := le_ofDigitChars ds (10*m+(d.toNat - '0'.toNat))
      omega
    rw [append,if_pos hl,hm,ih h]

theorem readExponent?_of_endsNumber {r : Text} (hr : EndsNumber r) (negative : Bool) (n : Nat)
    (e : Int) (whole : Option Value) :
    readExponent? negative n e whole r = whole.map (·,r) := by
  cases r with
  | nil => rfl
  | cons c r =>
    obtain ⟨-,-,he,hE⟩ := hr c rfl
    simp [readExponent?,he,hE]

theorem readUnsigned?_toDigits {n : Nat} {r : Text} (hn : n < wordLimit) (hr : EndsNumber r)
    (negative : Bool) :
    readUnsigned? negative (Nat.toDigits 10 n ++ r) = some (ofWhole negative n,r) := by
  have hall : ∀ c ∈ Nat.toDigits 10 n, c.isDigit = true := fun c hc => isDigit_of_mem_toDigits hc
  have hhead : ∀ c, r.head? = some c → c.isDigit = false := fun c hc => (hr c hc).1
  have hd : digitsOf (Nat.toDigits 10 n ++ r) = Nat.toDigits 10 n :=
    Text.takeWhile_append_eq hall hhead
  have ha : afterDigits (Nat.toDigits 10 n ++ r) = r := Text.dropWhile_append_eq hall hhead
  have hz : ((Nat.toDigits 10 n).isEmpty ||
      ((Nat.toDigits 10 n).head? == some '0' && 1 < (Nat.toDigits 10 n).length)) = false := by
    by_cases h : (Nat.toDigits 10 n).head? = some '0'
    · have hn := eq_zero_of_head?_toDigits h
      subst hn
      decide
    · simp [h]
  have hp : append 0 (Nat.toDigits 10 n) = (n,[]) := by
    have hl : Nat.ofDigitChars 10 (Nat.toDigits 10 n) 0 < wordLimit := by simpa using hn
    simpa using append_eq hl
  simp only [readUnsigned?,hd,ha,hz,hp,Bool.false_eq_true,if_false]
  split
  · exact absurd rfl (hr '.' rfl).2.1
  · rw [readExponent?_of_endsNumber hr]
    rfl

theorem read?_toDigits (n : Nat) (r : Text) :
    read? (Nat.toDigits 10 n ++ r) = readUnsigned? false (Nat.toDigits 10 n ++ r) := by
  unfold read?
  split
  · rename_i s h
    cases hc : Nat.toDigits 10 n with
    | nil => exact absurd hc Nat.toDigits_ne_nil
    | cons c cs =>
      have hd : c.isDigit = true := isDigit_of_mem_toDigits (n := n) (by simp [hc])
      rw [hc,List.cons_append] at h
      rw [(List.cons.inj h).1] at hd
      cases hd
  · rfl

theorem read?_write {n : Int} {r : Text} (hn : fitsWord n = true) (hr : EndsNumber r) :
    read? (write n ++ r) = some (.int n,r) := by
  simp only [fitsWord,Bool.and_eq_true,decide_eq_true_eq] at hn
  have hw : wordLimit = 2^64 := rfl
  have hp : Nat.pow 2 63 = 2^63 := rfl
  cases n with
  | ofNat n =>
    have hl : n < wordLimit := Int.ofNat_lt.mp hn.2
    exact (read?_toDigits n r).trans (readUnsigned?_toDigits hl hr false)
  | negSucc n =>
    have hl : n+1 < wordLimit := by omega
    have ho : ofWhole true (n+1) = .int (.negSucc n) := by
      have hf : 0 < n+1 ∧ n+1 ≤ Nat.pow 2 63 := by omega
      rw [ofWhole,if_pos rfl,if_pos hf]
      rfl
    have hh := readUnsigned?_toDigits hl hr true
    rw [ho] at hh
    exact hh

end NumberText
end DocTags
