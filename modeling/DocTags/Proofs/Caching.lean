import DocTags.PlainReader
import DocTags.Proofs.LookupPaths

/-! The cache of a reader cannot be seen. What is kept is always right for the text, so each answer is
the one of the reader without a cache, and so are the answers of a whole run. -/
namespace DocTags
namespace Reader

/-- What is kept is the full parse once it ran; before, it is the values of keys that are never bare
and occur more than once. -/
structure Coherent (r : Reader) : Prop where
  nodup : (KeyedList.keys r.cache).Nodup
  full : r.complete = true → r.cache = Annotations.ofText r.text
  scanned : r.complete = false → ∀ k vs, r.cache.lookup k = some vs →
    Tag.isKey k = true ∧ Tag.hasBare r.text k = false ∧
      vs = (Tag.valuesOf r.text k).map Value.ofText ∧ 2 ≤ vs.length

def plain (r : Reader) : PlainReader := ⟨r.text,r.complete⟩

theorem coherent_ofText (s : Text) : Coherent (ofText s) where
  nodup := by simp [ofText,KeyedList.keys]
  full := by simp [ofText]
  scanned := by simp [ofText]

theorem scan_of_isRepeated {s k : Text} (h : isRepeated s k = true) :
    scan s k = some (Annotations.collapse ((Tag.valuesOf s k).map Value.ofText)) := by
  obtain ⟨hk,hb,hl⟩ := isRepeated_iff.mp h
  simp only [scan,hk,hb,Bool.not_true,Bool.false_eq_true,if_false]
  cases hv : Tag.valuesOf s k with
  | nil => simp [hv] at hl
  | cons v vs => rfl

theorem scan_of_full_missing {r : Reader} {k : Text} (h : Coherent r) (hc : r.complete = true)
    (hm : r.cache.lookup k = none) : scan r.text k = none := by
  rw [h.full hc] at hm
  cases hk : Tag.isKey k with
  | false => exact scan_of_not_isKey hk
  | true => exact (scan_eq_none_iff hk).mpr hm

theorem lookup_eq_plain {r : Reader} (h : Coherent r) (k : Text) :
    (r.lookup k).1 = r.plain.lookup k := by
  cases hc : r.complete with
  | true =>
    have hp : r.plain.lookup k =
        ((Annotations.ofText r.text).lookup k).map Annotations.collapse := by
      rw [PlainReader.lookup,plain,if_pos hc]
      exact parameters_fresh_lookup r.text k
    rw [hp,← h.full hc]
    cases hm : r.cache.lookup k with
    | some vs => rw [lookup_of_kept hm]; rfl
    | none => rw [lookup_of_missing hm,scan_of_full_missing h hc hm]; rfl
  | false =>
    have hp : r.plain.lookup k = scan r.text k := by
      rw [PlainReader.lookup,plain,hc,if_neg Bool.false_ne_true]
      exact lookup_fresh r.text k
    rw [hp]
    cases hm : r.cache.lookup k with
    | some vs =>
      obtain ⟨hk,hb,rfl,hl⟩ := h.scanned hc k vs hm
      rw [List.length_map] at hl
      rw [lookup_of_kept hm,scan_of_isRepeated (isRepeated_iff.mpr ⟨hk,hb,hl⟩)]
    | none => rw [lookup_of_missing hm]

theorem coherent_lookup {r : Reader} (h : Coherent r) (k : Text) :
    Coherent (r.lookup k).2 ∧ (r.lookup k).2.plain = r.plain := by
  cases hm : r.cache.lookup k with
  | some vs => rw [lookup_of_kept hm]; exact ⟨h,rfl⟩
  | none =>
    rw [lookup_of_missing hm]
    cases hr : isRepeated r.text k with
    | false => exact ⟨h,rfl⟩
    | true =>
      have hc : r.complete = false := by
        by_contra hc
        have hn := scan_of_full_missing h (by simpa using hc) hm
        rw [scan_of_isRepeated hr] at hn
        cases hn
      rw [if_pos rfl,← KeyedList.put_of_notMem (KeyedList.lookup_eq_none_iff.mp hm)]
      refine ⟨⟨KeyedList.nodup_keys_put h.nodup,by simp [hc],fun _ k' vs hv => ?_⟩,rfl⟩
      rw [KeyedList.lookup_put] at hv
      by_cases he : k' = k
      · obtain ⟨hk,hb,hl⟩ := isRepeated_iff.mp hr
        rw [if_pos (beq_iff_eq.mpr he),Option.some.injEq] at hv
        subst he hv
        exact ⟨hk,hb,rfl,by rwa [List.length_map]⟩
      · rw [if_neg (by simpa using he)] at hv
        exact h.scanned hc k' vs hv

theorem parseAll_eq {r : Reader} (h : Coherent r) :
    r.parseAll = ⟨r.text,Annotations.ofText r.text,true⟩ := by
  cases hc : r.complete with
  | false => simp [parseAll,hc]
  | true =>
    rw [parseAll,if_pos hc,← h.full hc,← hc]

theorem coherent_full (s : Text) : Coherent ⟨s,Annotations.ofText s,true⟩ where
  nodup := Annotations.nodup_keys_ofText s
  full := fun _ => rfl
  scanned := by simp

theorem answer_eq_plain {r : Reader} (h : Coherent r) (q : Request) :
    (r.answer q).1 = (r.plain.answer q).1 ∧ (r.answer q).2.plain = (r.plain.answer q).2 ∧
      Coherent (r.answer q).2 := by
  cases q with
  | lookup k =>
    have hl := coherent_lookup h k
    exact ⟨congrArg Answer.value (lookup_eq_plain h k),hl.2,hl.1⟩
  | parameter k =>
    have hl := coherent_lookup h k
    exact ⟨congrArg Answer.value (lookup_eq_plain h k),hl.2,hl.1⟩
  | parseAll =>
    have hp : (r.answer .parseAll).2 = ⟨r.text,Annotations.ofText r.text,true⟩ := parseAll_eq h
    rw [hp]
    exact ⟨rfl,rfl,coherent_full r.text⟩
  | parameters =>
    have hp : r.answer .parameters =
        (.parameters (Annotations.fields r.parseAll.cache),r.parseAll) := rfl
    rw [hp,parseAll_eq h]
    exact ⟨rfl,rfl,coherent_full r.text⟩
  | occurrences =>
    have hp : r.answer .occurrences = (.occurrences r.parseAll.cache,r.parseAll) := rfl
    rw [hp,parseAll_eq h]
    exact ⟨rfl,rfl,coherent_full r.text⟩
  | declarations tag =>
    have hl := coherent_lookup h tag
    have hd : (r.declarations tag).1 = r.plain.declarations tag := by
      rw [PlainReader.declarations,← lookup_eq_plain h tag]
      rfl
    exact ⟨congrArg Answer.declarations hd,hl.2,hl.1⟩
  | setContent s => exact ⟨rfl,rfl,coherent_ofText s⟩
  | content => exact ⟨rfl,rfl,h⟩

theorem coherent_run {r : Reader} (h : Coherent r) (qs : List Request) : Coherent (r.run qs) := by
  induction qs generalizing r with
  | nil => exact h
  | cons q qs ih => exact ih (answer_eq_plain h q).2.2

theorem answers_eq_plain {r : Reader} (h : Coherent r) (qs : List Request) :
    r.answers qs = r.plain.answers qs := by
  induction qs generalizing r with
  | nil => rfl
  | cons q qs ih =>
    obtain ⟨ha,hp,hc⟩ := answer_eq_plain h q
    have hr := ih hc
    rw [hp] at hr
    simp only [answers,PlainReader.answers,ha,hr]

/-- A reader answers every list of requests as the reader without a cache does, whatever was asked
before and whether it could be answered. -/
theorem answers_eq_answers_plain (s : Text) (qs : List Request) :
    (ofText s).answers qs = (PlainReader.ofText s).answers qs :=
  answers_eq_plain (coherent_ofText s) qs

end Reader
end DocTags
