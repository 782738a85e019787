import DocTags.Proofs.Grouping
import DocTags.Proofs.KeyScan

/-! The two ways to the value of a key: a look-up that scans for the key alone, and the full parse of
the text. They miss the same keys, and they give different values only where a key is bare and occurs
more than once. -/
namespace DocTags

namespace Annotations

theorem valuesUnder_entries {k : Text} {ts : List Tag} (hb : .bare k ∉ ts)
    (hm : .malformed k ∉ ts) :
    valuesUnder k (ts.map entryOf) = (ts.filterMap (Tag.raw? k)).map .ofText := by
  induction ts with
  | nil => rfl
  | cons t ts ih =>
    simp only [List.mem_cons,not_or] at hb hm
    have hh := ih hb.2 hm.2
    rw [List.map_cons,valuesUnder_cons,hh]
    cases t with
    | valued k' raw =>
      by_cases h : k' = k <;> simp [entryOf,Tag.raw?,h]
    | bare k' =>
      have hne : k' ≠ k := by rintro rfl; exact hb.1 rfl
      simp [entryOf,List.filterMap_cons,Tag.raw?,hne]
    | malformed b =>
      have hne : b ≠ k := by rintro rfl; exact hm.1 rfl
      simp [entryOf,List.filterMap_cons,Tag.raw?,hne]

theorem lookup_ofText (s k : Text) :
    (ofText s).lookup k =
      if valuesUnder k ((Tag.all s).map entryOf) = [] then none
      else some (valuesUnder k ((Tag.all s).map entryOf)) := by
  rw [ofText,ofTags_eq_addAll,lookup_addAll]
  simp

theorem lookup_fields {es : Annotations} (k : Text) (h : (KeyedList.keys es).Nodup) :
    (fields es).lookup k = (es.lookup k).map collapse := by
  have hk : (KeyedList.keys (es.map fun e => (e.1,collapse e.2))).Nodup := by
    simpa [KeyedList.keys,Function.comp_def] using h
  rw [fields,KeyedList.ofPairs_of_nodup hk,KeyedList.lookup_map_snd]

end Annotations

namespace Reader

/-- What a look-up finds in a text when nothing is kept. -/
def scan (s k : Text) : Option Value :=
  if !Tag.isKey k then none
  else if Tag.hasBare s k then some (.bool true)
  else match (Tag.valuesOf s k).map Value.ofText with
    | [] => none
    | vs => some (Annotations.collapse vs)

/-- Whether a look-up of the key has values to keep: the key is nowhere bare and occurs more than
once. -/
def isRepeated (s k : Text) : Bool :=
  Tag.isKey k && !Tag.hasBare s k && decide (2 ≤ (Tag.valuesOf s k).length)

theorem isRepeated_iff {s k : Text} : isRepeated s k = true ↔
    Tag.isKey k = true ∧ Tag.hasBare s k = false ∧ 2 ≤ (Tag.valuesOf s k).length := by
  simp [isRepeated,and_assoc]

theorem foldl_add_of_missing {k : Text} {es : Annotations} (hk : es.lookup k = none)
    {vs : List Value} (hv : vs ≠ []) :
    vs.foldl (fun es v => Annotations.add k v es) es = es ++ [(k,vs)] := by
  rw [← Annotations.addAll_new (KeyedList.lookup_eq_none_iff.mp hk) hv,Annotations.addAll,
    List.foldl_map]

theorem lookup_of_kept {r : Reader} {k : Text} {vs : List Value} (h : r.cache.lookup k = some vs) :
    r.lookup k = (some (Annotations.collapse vs),r) := by
  simp [lookup,h]

theorem lookup_of_missing {r : Reader} {k : Text} (h : r.cache.lookup k = none) :
    r.lookup k = (scan r.text k,
      if isRepeated r.text k then
        { r with cache := r.cache ++ [(k,(Tag.valuesOf r.text k).map Value.ofText)] }
      else r) := by
  cases hk : Tag.isKey k with
  | false => simp [lookup,scan,isRepeated,h,hk]
  | true =>
    cases hb : Tag.hasBare r.text k with
    | true => simp [lookup,scan,isRepeated,h,hk,hb]
    | false =>
      match hv : Tag.valuesOf r.text k with
      | [] => simp [lookup,scan,isRepeated,h,hk,hb,hv]
      | [v] => simp [lookup,scan,isRepeated,h,hk,hb,hv,Annotations.collapse]
      | v :: w :: vs =>
        have ha := foldl_add_of_missing h
          (List.cons_ne_nil (Value.ofText v) ((w :: vs).map Value.ofText))
        simp only [List.map_cons] at ha
        simp only [lookup,scan,isRepeated,h,hk,hb,hv,Bool.not_true,Bool.false_eq_true,if_false,
          List.map_cons,ha]
        simp [List.lookup_append,h,Annotations.collapse]

theorem lookup_fresh (s k : Text) : ((ofText s).lookup k).1 = scan s k := by
  rw [lookup_of_missing (show (ofText s).cache.lookup k = none from rfl)]
  rfl

theorem parameters_fresh_lookup (s k : Text) :
    (ofText s).parameters.1.lookup k =
      ((Annotations.ofText s).lookup k).map Annotations.collapse :=
  Annotations.lookup_fields k (Annotations.nodup_keys_ofText s)

theorem scan_of_not_isKey {s k : Text} (hk : Tag.isKey k = false) : scan s k = none := by
  simp [scan,hk]

theorem scan_of_hasBare {s k : Text} (hk : Tag.isKey k = true) (hb : Tag.hasBare s k = true) :
    scan s k = some (.bool true) := by
  simp [scan,hk,hb]

theorem scan_of_not_hasBare {s k : Text} (hk : Tag.isKey k = true) (hb : Tag.hasBare s k = false) :
    scan s k = ((Annotations.ofText s).lookup k).map Annotations.collapse := by
  have hbare : .bare k ∉ Tag.all s := by
    intro h
    rw [(Tag.hasBare_iff hk).mpr h] at hb
    cases hb
  have hmal : .malformed k ∉ Tag.all s := by
    intro h
    rw [Tag.isKey_of_malformed_mem h] at hk
    cases hk
  rw [Annotations.lookup_ofText,Annotations.valuesUnder_entries hbare hmal,
    ← Tag.valuesOf_of_hasBare hk hb]
  simp only [scan,hk,hb,Bool.not_true,Bool.false_eq_true,if_false]
  cases hv : (Tag.valuesOf s k).map Value.ofText <;> simp

theorem true_mem_of_hasBare {s k : Text} (hk : Tag.isKey k = true) (hb : Tag.hasBare s k = true) :
    ∃ vs, (Annotations.ofText s).lookup k = some vs ∧ .bool true ∈ vs := by
  have hm := (Tag.hasBare_iff hk).mp hb
  have hv : Value.bool true ∈ Annotations.valuesUnder k ((Tag.all s).map Annotations.entryOf) := by
    refine List.mem_map.mpr ⟨(k,.bool true),?_,rfl⟩
    exact List.mem_filter.mpr ⟨List.mem_map.mpr ⟨_,hm,rfl⟩,by simp⟩
  refine ⟨_,?_,hv⟩
  rw [Annotations.lookup_ofText,if_neg (List.ne_nil_of_mem hv)]

theorem scan_eq_none_iff {s k : Text} (hk : Tag.isKey k = true) :
    scan s k = none ↔ (Annotations.ofText s).lookup k = none := by
  cases hb : Tag.hasBare s k with
  | false => rw [scan_of_not_hasBare hk hb,Option.map_eq_none_iff]
  | true =>
    obtain ⟨vs,hv,-⟩ := true_mem_of_hasBare hk hb
    simp [scan_of_hasBare hk hb,hv]

/-- One value that is true is what a bare key means; a list of two or more is not. -/
theorem bool_true_ne_collapse_iff {vs : List Value} (h : .bool true ∈ vs) :
    Value.bool true ≠ Annotations.collapse vs ↔ 2 ≤ vs.length := by
  match vs,h with
  | [v],h =>
    have hv := List.mem_singleton.mp h
    simp [Annotations.collapse,hv]
  | _ :: _ :: vs,_ => simp [Annotations.collapse]

/-- A look-up by a new reader and the full parse of the text find the same keys. Without a bare
occurrence they give the same value; with one the look-up gives true, which is not what the full
parse gives exactly if the key occurs again. What is no key is never found by a new reader. -/
theorem lookup_fresh_and_parameters (s k : Text) :
    let found := ((ofText s).lookup k).1
    let listed := (ofText s).parameters.1.lookup k
    let occurrences := ((ofText s).occurrences.1.lookup k).getD []
    (Tag.isKey k = true →
      (found = none ↔ listed = none) ∧
      (¬ Tag.BareOccurrence s k → found = listed) ∧
      (Tag.BareOccurrence s k → found = some (.bool true)) ∧
      (found ≠ listed ↔ Tag.BareOccurrence s k ∧ 2 ≤ occurrences.length)) ∧
    (Tag.isKey k = false → found = none) := by
  rw [lookup_fresh,parameters_fresh_lookup]
  refine ⟨fun hk => ?_,scan_of_not_isKey⟩
  have ho : (ofText s).occurrences.1 = Annotations.ofText s := rfl
  rw [ho,← Tag.hasBare_iff_bareOccurrence,Bool.not_eq_true]
  refine ⟨?_,scan_of_not_hasBare hk,scan_of_hasBare hk,?_⟩
  · rw [scan_eq_none_iff hk,Option.map_eq_none_iff]
  · cases hb : Tag.hasBare s k with
    | false => simp [scan_of_not_hasBare hk hb]
    | true =>
      obtain ⟨vs,hv,ht⟩ := true_mem_of_hasBare hk hb
      simpa [scan_of_hasBare hk hb,hv] using bool_true_ne_collapse_iff ht

theorem lookup_of_bare_and_valued :
    let s := "@get /users\n@get \r\n@gets 1".toList
    let k := "get".toList
    Tag.isKey k = true ∧ ((ofText s).lookup k).1 = some (.bool true) ∧
      ((ofText s).lookup k).1 ≠ (ofText s).parameters.1.lookup k := by
  intro s k
  have hk : Tag.isKey k = true := by decide
  have hb : Tag.BareOccurrence s k := Tag.hasBare_iff_bareOccurrence.mp (by decide)
  have hl : 2 ≤ (((ofText s).occurrences.1.lookup k).getD []).length := by decide
  obtain ⟨-,-,hbare,hne⟩ := (lookup_fresh_and_parameters s k).1 hk
  exact ⟨hk,hbare hb,hne.mpr ⟨hb,hl⟩⟩

end Reader
end DocTags
