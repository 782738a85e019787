import DocTags.Proofs.Segment
import DocTags.Reader
import Mathlib.Algebra.GroupWithZero.Nat
import Mathlib.Data.List.Forall2

/-! The full parse groups the tags of a text by key. Recording one value more changes the list of one
key at its end, and so a whole run of recordings keeps the order of keys and of values; every at sign
gives one of the values. -/
namespace DocTags
namespace Annotations

def addAll (ps : List (Text × Value)) (es : Annotations) : Annotations :=
  ps.foldl (fun es p => add p.1 p.2 es) es

def valuesUnder (k : Text) (ps : List (Text × Value)) : List Value :=
  (ps.filter fun p => p.1 == k).map Prod.snd

def total (es : Annotations) : Nat := (es.map fun e => e.2.length).sum

@[simp] theorem addAll_nil (es : Annotations) : addAll [] es = es := rfl

@[simp] theorem addAll_cons (p : Text × Value) (ps : List (Text × Value)) (es : Annotations) :
    addAll (p :: ps) es = addAll ps (add p.1 p.2 es) := rfl

theorem ofTags_eq_addAll (ts : List Tag) : ofTags ts = addAll (ts.map entryOf) [] := by
  rw [addAll,List.foldl_map,ofTags]

@[simp] theorem valuesUnder_nil (k : Text) : valuesUnder k [] = [] := rfl

theorem valuesUnder_cons (k : Text) (p : Text × Value) (ps : List (Text × Value)) :
    valuesUnder k (p :: ps) = if p.1 = k then p.2 :: valuesUnder k ps else valuesUnder k ps := by
  by_cases h : p.1 = k <;> simp [valuesUnder,h]

theorem valuesUnder_eq_nil_iff {k : Text} {ps : List (Text × Value)} :
    valuesUnder k ps = [] ↔ k ∉ ps.map Prod.fst := by
  induction ps with
  | nil => simp
  | cons p ps ih =>
    rw [valuesUnder_cons]
    by_cases h : p.1 = k
    · simp [h]
    · simp [h,ih,Ne.symm h]

/-- Recorded values go to the end of what their key had. -/
theorem lookup_addAll (k : Text) (ps : List (Text × Value)) (es : Annotations) :
    (addAll ps es).lookup k =
      if valuesUnder k ps = [] then es.lookup k
      else some ((es.lookup k).getD [] ++ valuesUnder k ps) := by
  induction ps generalizing es with
  | nil => simp
  | cons p ps ih =>
    rw [addAll_cons,ih,lookup_add,valuesUnder_cons]
    by_cases h : p.1 = k
    · by_cases hv : valuesUnder k ps = [] <;> simp [h,hv]
    · have hk : (k == p.1) = false := beq_false_of_ne (Ne.symm h)
      simp [h,hk]

theorem keys_addAll (ps : List (Text × Value)) :
    KeyedList.keys (addAll ps []) = (ps.map Prod.fst).eraseDups := by
  have h : KeyedList.keys ([] : Annotations) = ([] : List Text).eraseDups := rfl
  exact KeyedList.keys_foldl (fun es p => keys_add p.1 p.2 es) ps h

theorem nodup_keys_addAll {ps : List (Text × Value)} {es : Annotations}
    (h : (KeyedList.keys es).Nodup) : (KeyedList.keys (addAll ps es)).Nodup := by
  induction ps generalizing es with
  | nil => exact h
  | cons p ps ih => exact ih (KeyedList.nodup_keys_put h)

theorem addAll_last {k : Text} {es : Annotations} (hk : k ∉ KeyedList.keys es) (us vs : List Value) :
    addAll (vs.map (k,·)) (es ++ [(k,us)]) = es ++ [(k,us ++ vs)] := by
  induction vs generalizing us with
  | nil => simp
  | cons v vs ih =>
    have hp : add k v (es ++ [(k,us)]) = es ++ [(k,us ++ [v])] := by
      have hl : (es ++ [(k,us)]).lookup k = some us := by
        simp [List.lookup_append,KeyedList.lookup_eq_none_iff.mpr hk]
      rw [add,hl,KeyedList.put_append_of_notMem hk]
      simp [KeyedList.put]
    rw [List.map_cons,addAll_cons,hp,ih]
    simp

theorem addAll_new {k : Text} {es : Annotations} (hk : k ∉ KeyedList.keys es) {vs : List Value}
    (hv : vs ≠ []) : addAll (vs.map (k,·)) es = es ++ [(k,vs)] := by
  cases vs with
  | nil => exact absurd rfl hv
  | cons v vs =>
    have ha : add k v es = es ++ [(k,[v])] := by
      rw [add,KeyedList.put_of_notMem hk,KeyedList.lookup_eq_none_iff.mpr hk]
      rfl
    rw [List.map_cons,addAll_cons,ha,addAll_last hk]
    rfl

theorem total_put (k : Text) (vs : List Value) (es : Annotations) :
    total (KeyedList.put k vs es) + ((es.lookup k).getD []).length = total es + vs.length := by
  induction es with
  | nil => simp [KeyedList.put,total]
  | cons e es ih =>
    rw [KeyedList.put,KeyedList.lookup_cons_eq]
    by_cases h : k == e.1
    · simp only [h,if_true,total,List.map_cons,List.sum_cons,Option.getD_some]
      omega
    · simp only [h,if_false,total,List.map_cons,List.sum_cons,Bool.false_eq_true] at ih ⊢
      omega

theorem total_addAll (ps : List (Text × Value)) (es : Annotations) :
    total (addAll ps es) = total es + ps.length := by
  induction ps generalizing es with
  | nil => rfl
  | cons p ps ih =>
    have hp := total_put p.1 ((es.lookup p.1).getD [] ++ [p.2]) es
    rw [← add,List.length_append] at hp
    rw [addAll_cons,ih,List.length_cons]
    simp only [List.length_singleton] at hp
    omega

/-- A run of recordings is the stable grouping of its pairs. -/
theorem addAll_eq_map (ps : List (Text × Value)) :
    addAll ps [] = (ps.map Prod.fst).eraseDups.map fun k => (k,valuesUnder k ps) := by
  have hn : (KeyedList.keys (addAll ps [])).Nodup := nodup_keys_addAll (by simp [KeyedList.keys])
  have he := KeyedList.eq_map_keys [] hn
  rw [keys_addAll] at he
  rw [he]
  refine List.map_congr_left fun k _ => ?_
  rw [lookup_addAll]
  by_cases hv : valuesUnder k ps = [] <;> simp [hv]

end Annotations

namespace Tag

/-- The places of the at signs of a text. -/
def places (s : Text) : List Nat := (List.range s.length).filter fun i => s[i]? == some '@'

/-- What the text behind a place means as a tag. -/
def StandsAt (s : Text) (i : Nat) (t : Tag) : Prop := ∃ b, IsBody b (s.drop (i+1)) ∧ Denotes b t

theorem afterAts_eq_map (s : Text) : afterAts s = (places s).map fun i => s.drop (i+1) := by
  induction s with
  | nil => rfl
  | cons c r ih =>
    have hs : places (c :: r) = (if c = '@' then [0] else []) ++ (places r).map (·+1) := by
      have hf : (fun i => (c :: r)[i]? == some '@') ∘ Nat.succ = fun i => r[i]? == some '@' := by
        funext i
        simp
      rw [places,List.length_cons,List.range_succ_eq_map,List.filter_cons,List.filter_map,hf]
      by_cases h : c = '@' <;> simp [places,h]
    rw [hs]
    by_cases h : c = '@' <;> simp [afterAts,h,ih,Function.comp_def]

/-- One tag for every at sign, in the order of the text. -/
theorem forall₂_all (s : Text) : List.Forall₂ (StandsAt s) (places s) (all s) := by
  rw [all,segments,afterAts_eq_map,List.map_map,List.map_map,List.forall₂_map_right_iff,
    List.forall₂_same]
  intro i _
  exact ⟨body (s.drop (i+1)),isBody_body _,ofSegment_eq_iff.mp rfl⟩

theorem standsAt_of_mem {s : Text} {t : Tag} (h : t ∈ all s) : ∃ i, StandsAt s i t := by
  have hf := forall₂_all s
  obtain ⟨n,hn,rfl⟩ := List.getElem_of_mem h
  have hl : n < (places s).length := by rw [hf.length_eq]; exact hn
  exact ⟨_,List.forall₂_iff_get.mp hf |>.2 n hl hn⟩

theorem isKey_of_malformed_mem {s b : Text} (h : .malformed b ∈ all s) : isKey b = false := by
  obtain ⟨i,b',-,hd⟩ := standsAt_of_mem h
  cases hd with
  | malformed hk _ => exact hk

end Tag

namespace Annotations

theorem entryOf_null {b : Text} {t : Tag} (h : Tag.Denotes b t)
    (hk : Tag.isKey (entryOf t).1 = false) : (entryOf t).2 = .null := by
  cases h with
  | valued h => simp [entryOf,h] at hk
  | bare h => simp [entryOf,h] at hk
  | malformed => rfl

theorem entryOf_key_clean {s : Text} {i : Nat} {t : Tag} (h : Tag.StandsAt s i t) :
    (∀ c ∈ (entryOf t).1, Tag.isTerminator c = false) ∧
      ∀ c, (entryOf t).1.getLast? = some c → Tag.isBlank c = false := by
  have hkey {k : Text} (hk : Tag.isKey k = true) : (∀ c ∈ k, Tag.isTerminator c = false) ∧
      ∀ c, k.getLast? = some c → Tag.isBlank c = false :=
    ⟨fun c hc => Tag.isTerminator_of_isKeyChar (Tag.isKeyChar_of_mem hk hc),
      fun c hc => Tag.isBlank_of_isKeyChar (Tag.isKeyChar_of_mem hk (List.mem_of_getLast? hc))⟩
  obtain ⟨b,hb,hd⟩ := h
  cases hd with
  | valued hk => exact hkey hk
  | bare hk => exact hkey hk
  | malformed => exact ⟨hb.inside,hb.trimmed⟩

theorem ofText_eq_map (s : Text) :
    ofText s = (((Tag.all s).map entryOf).map Prod.fst).eraseDups.map fun k =>
      (k,valuesUnder k ((Tag.all s).map entryOf)) := by
  rw [ofText,ofTags_eq_addAll,addAll_eq_map]

theorem nodup_keys_ofText (s : Text) : (KeyedList.keys (ofText s)).Nodup := by
  rw [ofText,ofTags_eq_addAll]
  exact nodup_keys_addAll (by simp [KeyedList.keys])

theorem total_ofText (s : Text) : total (ofText s) = s.count '@' := by
  rw [ofText,ofTags_eq_addAll,total_addAll,List.length_map,Tag.length_all]
  simp [total]

theorem exists_tag_of_mem {s : Text} {e : Text × List Value} (h : e ∈ ofText s) :
    ∃ t ∈ Tag.all s, (entryOf t).1 = e.1 := by
  rw [ofText_eq_map] at h
  obtain ⟨k,hk,rfl⟩ := List.mem_map.mp h
  simpa using hk

theorem values_of_mem {s : Text} {e : Text × List Value} (h : e ∈ ofText s) :
    e.2 = valuesUnder e.1 ((Tag.all s).map entryOf) := by
  rw [ofText_eq_map] at h
  obtain ⟨k,-,rfl⟩ := List.mem_map.mp h
  rfl

theorem values_ne_nil_of_mem {s : Text} {e : Text × List Value} (h : e ∈ ofText s) : e.2 ≠ [] := by
  obtain ⟨t,ht,hk⟩ := exists_tag_of_mem h
  rw [values_of_mem h,Ne,valuesUnder_eq_nil_iff,not_not]
  exact List.mem_map.mpr ⟨_,List.mem_map.mpr ⟨t,ht,rfl⟩,hk⟩

theorem exists_tag_of_value {s : Text} {e : Text × List Value} {v : Value} (h : e ∈ ofText s)
    (hv : v ∈ e.2) : ∃ t ∈ Tag.all s, entryOf t = (e.1,v) := by
  rw [values_of_mem h] at hv
  obtain ⟨p,hp,rfl⟩ := List.mem_map.mp hv
  obtain ⟨hm,hk⟩ := List.mem_filter.mp hp
  obtain ⟨t,ht,rfl⟩ := List.mem_map.mp hm
  exact ⟨t,ht,Prod.ext (beq_iff_eq.mp hk) rfl⟩

end Annotations

namespace Reader

/-- The occurrences are the tags of the text, one for each at sign, grouped by key: keys in order of
their first tag, values in order of the text, and nothing but null under a text that is no key. -/
theorem occurrences_group_tags (s : Text) :
    let es := (ofText s).occurrences.1
    let ps := (Tag.all s).map Annotations.entryOf
    List.Forall₂ (Tag.StandsAt s) (Tag.places s) (Tag.all s) ∧
    es = (ps.map Prod.fst).eraseDups.map (fun k => (k,Annotations.valuesUnder k ps)) ∧
    (KeyedList.keys es).Nodup ∧
    (∀ e ∈ es, e.2 ≠ []) ∧
    (es.map fun e => e.2.length).sum = s.count '@' ∧
    (∀ e ∈ es, Tag.isKey e.1 = false → ∀ v ∈ e.2, v = .null) ∧
    (∀ b, .malformed b ∈ Tag.all s → Tag.isKey b = false) ∧
    ∀ e ∈ es, '@' ∉ e.1 ∧ '\n' ∉ e.1 ∧
      ∀ c, e.1.getLast? = some c → c ≠ ' ' ∧ c ≠ '\t' ∧ c ≠ '\r' := by
  refine ⟨Tag.forall₂_all s,Annotations.ofText_eq_map s,Annotations.nodup_keys_ofText s,
    fun e he => Annotations.values_ne_nil_of_mem he,Annotations.total_ofText s,?_,
    fun b hb => Tag.isKey_of_malformed_mem hb,?_⟩
  · intro e he hk v hv
    obtain ⟨t,ht,hte⟩ := Annotations.exists_tag_of_value he hv
    obtain ⟨i,b,-,hd⟩ := Tag.standsAt_of_mem ht
    have hn := Annotations.entryOf_null hd (by rw [hte]; exact hk)
    rwa [hte] at hn
  · intro e he
    obtain ⟨t,ht,hk⟩ := Annotations.exists_tag_of_mem he
    obtain ⟨i,hi⟩ := Tag.standsAt_of_mem ht
    obtain ⟨ht,hb⟩ := Annotations.entryOf_key_clean hi
    rw [hk] at ht hb
    refine ⟨fun h => ?_,fun h => ?_,fun c hc => ?_⟩
    · cases ht '@' h
    · cases ht '\n' h
    · have hc := hb c hc
      simpa [Tag.isBlank,and_assoc] using hc

end Reader
end DocTags
