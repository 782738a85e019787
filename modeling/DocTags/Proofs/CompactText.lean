import DocTags.Proofs.ReadingValues
import DocTags.Tag

/-! The characters of a compact text. Besides the characters of the value's own texts, which are never
control characters, there are letters, digits and a few marks; so the text is one line and is not cut
where it stands behind a key. -/
namespace DocTags

namespace Value

mutual
/-- All texts in a value: strings and keys, at every depth. -/
def texts : Value → List Text
  | string s => [s]
  | list vs => itemsTexts vs
  | object fs => fieldsTexts fs
  | _ => []

def itemsTexts : List Value → List Text
  | [] => []
  | v :: vs => texts v ++ itemsTexts vs

def fieldsTexts : List (Text × Value) → List Text
  | [] => []
  | (k,v) :: fs => k :: (texts v ++ fieldsTexts fs)
end

/-- The characters that the printer itself puts into a compact text. -/
def isMark (c : Char) : Bool :=
  c.isAlphanum || ['"','\\','-',',',':','[',']','\x7b','\x7d'].contains c

/-- Every character is a mark, or comes from one of the texts and is no control character. -/
def MadeOf (ts : List Text) (s : Text) : Prop :=
  ∀ c ∈ s, isMark c = true ∨ 0x20 ≤ c.toNat ∧ ∃ t ∈ ts, c ∈ t

section

variable {ts ts' : List Text} {s s' : Text}

theorem madeOf_of_marks (h : s.all isMark = true) : MadeOf ts s := fun c hc =>
  Or.inl (List.all_eq_true.mp h c hc)

theorem MadeOf.mono (h : MadeOf ts s) (hs : ∀ t ∈ ts, t ∈ ts') : MadeOf ts' s := by
  intro c hc
  rcases h c hc with hm | ⟨hl,t,ht,hct⟩
  · exact Or.inl hm
  · exact Or.inr ⟨hl,t,hs t ht,hct⟩

theorem MadeOf.append (h : MadeOf ts s) (h' : MadeOf ts' s') : MadeOf (ts ++ ts') (s ++ s') := by
  intro c hc
  rcases List.mem_append.mp hc with hc | hc
  · exact h.mono (fun t ht => List.mem_append_left _ ht) c hc
  · exact h'.mono (fun t ht => List.mem_append_right _ ht) c hc

theorem MadeOf.cons {c : Char} (hc : isMark c = true) (h : MadeOf ts s) : MadeOf ts (c :: s) := by
  intro d hd
  rcases List.mem_cons.mp hd with rfl | hd
  · exact Or.inl hc
  · exact h d hd

end

theorem isMark_of_isDigit {c : Char} (h : c.isDigit = true) : isMark c = true := by
  simp [isMark,Char.isAlphanum,h]

theorem isBlank_of_isMark {c : Char} (h : isMark c = true) : Tag.isBlank c = false := by
  by_contra hb
  simp only [Tag.isBlank,Bool.not_eq_false,Bool.or_eq_true,decide_eq_true_eq] at hb
  rcases hb with (rfl | rfl) | rfl <;> revert h <;> decide

theorem isMark_hexDigits (n : Nat) (h : n < 0x20) :
    isMark (Nat.digitChar (n/16)) = true ∧ isMark (Nat.digitChar (n%16)) = true := by
  revert n
  decide

/-- A character is escaped by marks, or stands for itself and is no control character. -/
theorem mem_escape {c d : Char} (h : c ∈ QuotedText.escape d) :
    isMark c = true ∨ c = d ∧ 0x20 ≤ d.toNat := by
  unfold QuotedText.escape at h
  split at h
  case h_8 =>
    split at h
    · rename_i hd
      obtain ⟨hh,hl⟩ := isMark_hexDigits d.toNat hd
      simp only [List.mem_cons,List.not_mem_nil,or_false] at h
      rcases h with rfl | rfl | rfl | rfl | rfl | rfl
      exacts [Or.inl rfl,Or.inl rfl,Or.inl rfl,Or.inl rfl,Or.inl hh,Or.inl hl]
    · exact Or.inr ⟨List.mem_singleton.mp h,by omega⟩
  all_goals
    simp only [List.mem_cons,List.not_mem_nil,or_false] at h
    rcases h with rfl | rfl <;> exact Or.inl rfl

theorem madeOf_write (s : Text) : MadeOf [s] (QuotedText.write s) := by
  intro c hc
  simp only [QuotedText.write,List.mem_cons,List.mem_append,List.mem_flatMap,List.not_mem_nil,
    or_false] at hc
  rcases hc with rfl | ⟨d,hd,hc⟩ | rfl
  · exact Or.inl rfl
  · rcases mem_escape hc with hm | ⟨rfl,hl⟩
    · exact Or.inl hm
    · exact Or.inr ⟨hl,s,by simp,hd⟩
  · exact Or.inl rfl

theorem isMark_of_mem_writeInt {n : Int} {c : Char} (h : c ∈ NumberText.write n) :
    isMark c = true := by
  cases n with
  | ofNat n => exact isMark_of_isDigit (NumberText.isDigit_of_mem_toDigits h)
  | negSucc n =>
    rcases List.mem_cons.mp h with rfl | h
    · rfl
    · exact isMark_of_isDigit (NumberText.isDigit_of_mem_toDigits h)

mutual
theorem madeOf_compact : ∀ {v : Value}, v.exact = true → MadeOf v.texts v.compact
  | null,_ => madeOf_of_marks rfl
  | bool true,_ => madeOf_of_marks rfl
  | bool false,_ => madeOf_of_marks rfl
  | int _,_ => fun _ hc => Or.inl (isMark_of_mem_writeInt hc)
  | float _,h => by simp [exact] at h
  | string s,_ => madeOf_write s
  | list [],_ => madeOf_of_marks rfl
  | list (v :: vs),h => by
    simp only [exact,itemsExact,Bool.and_eq_true] at h
    exact ((madeOf_compact h.1).append (madeOf_compactItems h.2)).cons rfl
  | object [],_ => madeOf_of_marks rfl
  | object ((k,v) :: fs),h => by
    simp only [exact,fieldsExact,Bool.and_eq_true] at h
    have hh := (madeOf_compact h.2.1).append (madeOf_compactFields h.2.2)
    exact ((madeOf_write k).append (hh.cons rfl)).cons rfl

theorem madeOf_compactItems : ∀ {vs : List Value}, itemsExact vs = true →
    MadeOf (itemsTexts vs) (compactItems vs)
  | [],_ => madeOf_of_marks rfl
  | v :: vs,h => by
    simp only [itemsExact,Bool.and_eq_true] at h
    exact ((madeOf_compact h.1).append (madeOf_compactItems h.2)).cons rfl

theorem madeOf_compactFields : ∀ {fs : List (Text × Value)}, fieldsExact fs = true →
    MadeOf (fieldsTexts fs) (compactFields fs)
  | [],_ => madeOf_of_marks rfl
  | (k,v) :: fs,h => by
    simp only [fieldsExact,Bool.and_eq_true] at h
    have hh := (madeOf_compact h.1).append (madeOf_compactFields h.2)
    exact ((madeOf_write k).append (hh.cons rfl)).cons rfl
end

def Printable (s : Text) : Prop := ∀ c ∈ s, 0x20 ≤ c.toNat

theorem Printable.append {s s' : Text} (h : Printable s) (h' : Printable s') :
    Printable (s ++ s') := by
  intro c hc
  rcases List.mem_append.mp hc with hc | hc
  · exact h c hc
  · exact h' c hc

theorem Printable.cons {c : Char} {s : Text} (hc : 0x20 ≤ c.toNat) (h : Printable s) :
    Printable (c :: s) :=
  List.forall_mem_cons.mpr ⟨hc,h⟩

theorem isMark_of_lt (n : Nat) (h : n < 0x20) : isMark (Char.ofNat n) = false := by
  revert n
  decide

theorem le_toNat_of_isMark {c : Char} (h : isMark c = true) : 0x20 ≤ c.toNat := by
  by_contra hl
  have hn := isMark_of_lt c.toNat (Nat.not_le.mp hl)
  rw [Char.ofNat_toNat,h] at hn
  cases hn

theorem printable_of_marks {s : Text} (h : s.all isMark = true) : Printable s := fun c hc =>
  le_toNat_of_isMark (List.all_eq_true.mp h c hc)

theorem MadeOf.printable {ts : List Text} {s : Text} (h : MadeOf ts s) : Printable s := by
  intro c hc
  rcases h c hc with hm | ⟨hl,-⟩
  · exact le_toNat_of_isMark hm
  · exact hl

theorem printable_toDigits (n : Nat) : Printable (Nat.toDigits 10 n) := fun _ hc =>
  le_toNat_of_isMark (isMark_of_isDigit (NumberText.isDigit_of_mem_toDigits hc))

theorem printable_zeros (n : Nat) : Printable (List.replicate n '0') := by
  intro c hc
  rw [List.eq_of_mem_replicate hc]
  decide

theorem printable_positional {ds : Text} (h : Printable ds) (e : Int) :
    Printable (FloatText.positional ds e) := by
  unfold FloatText.positional
  split
  · exact (((printable_zeros _).append h).cons (by decide)).cons (by decide)
  · simp only
    split
    · have hz : Printable ['.','0'] := Printable.cons (by decide) (printable_of_marks rfl)
      exact (h.append (printable_zeros _)).append hz
    · have ht : Printable (ds.take (e.toNat+1)) := fun c hc => h c (List.mem_of_mem_take hc)
      have hd : Printable (ds.drop (e.toNat+1)) := fun c hc => h c (List.mem_of_mem_drop hc)
      exact ht.append (hd.cons (by decide))

theorem printable_scientific {ds : Text} (h : Printable ds) (e : Int) :
    Printable (FloatText.scientific ds e) := by
  have hm : Printable (FloatText.mantissa ds) := by
    cases ds with
    | nil => exact h
    | cons d ds =>
      cases ds with
      | nil => exact h
      | cons d' ds =>
        obtain ⟨hd,hds⟩ := List.forall_mem_cons.mp h
        exact Printable.cons hd (Printable.cons (by decide) hds)
  have hs : 0x20 ≤ (if e < 0 then '-' else '+').toNat := by split <;> decide
  exact hm.append (((printable_toDigits _).cons hs).cons (by decide))

theorem printable_writeFloat (x : Float) : Printable (FloatText.write x) := by
  have hb : Printable (FloatText.layout.write (ShortestDecimal.ofFloat x)) := by
    unfold FloatText.Layout.write
    simp only
    split
    · exact printable_positional (printable_toDigits _) _
    · exact printable_scientific (printable_toDigits _) _
  unfold FloatText.write
  simp only
  split
  · exact hb
  · exact hb.cons (by decide)

mutual
theorem printable_compact : ∀ v : Value, Printable v.compact
  | null => printable_of_marks rfl
  | bool true => printable_of_marks rfl
  | bool false => printable_of_marks rfl
  | int _ => fun _ hc => le_toNat_of_isMark (isMark_of_mem_writeInt hc)
  | float x => printable_writeFloat x
  | string s => (madeOf_write s).printable
  | list [] => printable_of_marks rfl
  | list (v :: vs) => ((printable_compact v).append (printable_compactItems vs)).cons (by decide)
  | object [] => printable_of_marks rfl
  | object ((k,v) :: fs) =>
    ((madeOf_write k).printable.append (((printable_compact v).append
      (printable_compactFields fs)).cons (by decide))).cons (by decide)

theorem printable_compactItems : ∀ vs : List Value, Printable (compactItems vs)
  | [] => printable_of_marks rfl
  | v :: vs => ((printable_compact v).append (printable_compactItems vs)).cons (by decide)

theorem printable_compactFields : ∀ fs : List (Text × Value), Printable (compactFields fs)
  | [] => printable_of_marks rfl
  | (k,v) :: fs =>
    ((madeOf_write k).printable.append (((printable_compact v).append
      (printable_compactFields fs)).cons (by decide))).cons (by decide)
end

theorem lineFeed_notMem_compact (v : Value) : '\n' ∉ v.compact := fun hc =>
  absurd (printable_compact v '\n' hc) (by decide)

/-- Nothing but the texts of a value brings an at sign into its compact text. -/
theorem at_notMem_compact {v : Value} (h : v.exact = true) (ht : ∀ t ∈ v.texts, '@' ∉ t) :
    '@' ∉ v.compact := by
  intro hc
  rcases madeOf_compact h '@' hc with hm | ⟨-,t,hm,hat⟩
  · cases hm
  · exact ht t hm hat

theorem getLast?_compactItems (vs : List Value) : (compactItems vs).getLast? = some ']' := by
  induction vs with
  | nil => rfl
  | cons v vs ih => simp [compactItems,List.getLast?_cons,ih]

theorem getLast?_compactFields (fs : List (Text × Value)) :
    (compactFields fs).getLast? = some '\x7d' := by
  induction fs with
  | nil => rfl
  | cons f fs ih => simp [compactFields,List.getLast?_cons,ih]

theorem isMark_getLast_compact {v : Value} (h : v.exact = true) {c : Char}
    (hc : v.compact.getLast? = some c) : isMark c = true := by
  have hlast {d : Char} {s : Text} (hs : s.getLast? = some d) (hd : isMark d = true) (t : Text) :
      (t ++ s).getLast? = some c → isMark c = true := by
    intro he
    rw [List.getLast?_append,hs,Option.some_or] at he
    exact Option.some.inj he ▸ hd
  match v with
  | null => exact hlast (s := ['l']) rfl rfl ['n','u','l'] hc
  | bool true => exact hlast (s := ['e']) rfl rfl ['t','r','u'] hc
  | bool false => exact hlast (s := ['e']) rfl rfl ['f','a','l','s'] hc
  | int n => exact isMark_of_mem_writeInt (List.mem_of_getLast? hc)
  | float x => simp [exact] at h
  | string s => exact hlast (s := ['"']) rfl rfl ('"' :: s.flatMap QuotedText.escape) hc
  | list [] => exact hlast (s := [']']) rfl rfl ['['] hc
  | list (v :: vs) => exact hlast (getLast?_compactItems vs) rfl ('[' :: v.compact) hc
  | object [] => exact hlast (s := ['\x7d']) rfl rfl ['\x7b'] hc
  | object ((k,v) :: fs) =>
    have hh := hlast (getLast?_compactFields fs) rfl
      ('\x7b' :: (QuotedText.write k ++ ':' :: v.compact))
    rw [List.cons_append,List.append_assoc,List.cons_append] at hh
    exact hh hc

end Value
end DocTags
