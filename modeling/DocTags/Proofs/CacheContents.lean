import DocTags.Proofs.Caching

/-! What a reader keeps, told from what it was asked. The text that was set last, the keys that were
looked up since then and whether a full parse was made determine the reader after any run. -/
namespace DocTags

/-- What a run leaves behind, told without a reader. -/
structure History where
  text : Text
  asked : List Text
  parsed : Bool

namespace History

def ofText (s : Text) : History := ⟨s,[],false⟩

def step (h : History) : Request → History
  | .lookup k | .parameter k | .declarations k => { h with asked := h.asked ++ [k] }
  | .parseAll | .parameters | .occurrences => { h with parsed := true }
  | .setContent s => ofText s
  | .content => h

def run (h : History) (qs : List Request) : History := qs.foldl step h

/-- The repeated keys among those looked up, in order of their first look-up. -/
def keptKeys (h : History) : List Text := (h.asked.filter (Reader.isRepeated h.text)).eraseDups

/-- The full parse once it was made, else the values of the repeated keys that were looked up. -/
def cache (h : History) : Annotations :=
  if h.parsed then Annotations.ofText h.text
  else h.keptKeys.map fun k => (k,(Tag.valuesOf h.text k).map Value.ofText)

def reader (h : History) : Reader := ⟨h.text,h.cache,h.parsed⟩

theorem mem_keptKeys {h : History} {k : Text} :
    k ∈ h.keptKeys ↔ k ∈ h.asked ∧ Reader.isRepeated h.text k = true := by
  rw [keptKeys,List.mem_eraseDups,List.mem_filter]

theorem keys_cache (h : History) (hp : h.parsed = false) : KeyedList.keys h.cache = h.keptKeys := by
  simp [cache,hp,KeyedList.keys,Function.comp_def]

theorem keptKeys_concat (s : Text) (ks : List Text) (k : Text) (p : Bool) :
    keptKeys ⟨s,ks ++ [k],p⟩ =
      if Reader.isRepeated s k = true ∧ k ∉ ks then keptKeys ⟨s,ks,p⟩ ++ [k]
      else keptKeys ⟨s,ks,p⟩ := by
  cases hr : Reader.isRepeated s k with
  | false => simp [keptKeys,hr]
  | true =>
    have hm : k ∈ ks.filter (Reader.isRepeated s) ↔ k ∈ ks := by simp [hr]
    simp only [keptKeys,List.filter_append,List.filter_cons,hr,List.filter_nil,if_true,
      KeyedList.eraseDups_concat,hm]
    by_cases hk : k ∈ ks <;> simp [hk]

theorem lookup_reader_parsed (s : Text) (ks : List Text) (k : Text) :
    ((reader ⟨s,ks,true⟩).lookup k).2 = reader ⟨s,ks ++ [k],true⟩ := by
  have hr : reader ⟨s,ks ++ [k],true⟩ = reader ⟨s,ks,true⟩ := rfl
  rw [hr]
  cases hm : (reader ⟨s,ks,true⟩).cache.lookup k with
  | some vs => rw [Reader.lookup_of_kept hm]
  | none =>
    have hs : Reader.scan s k = none := Reader.scan_of_full_missing (Reader.coherent_full s) rfl hm
    have hn : Reader.isRepeated s k = false := by
      by_contra hn
      rw [Reader.scan_of_isRepeated (by simpa using hn)] at hs
      cases hs
    rw [Reader.lookup_of_missing hm]
    exact if_neg (Bool.eq_false_iff.mp hn)

theorem lookup_reader_unparsed (s : Text) (ks : List Text) (k : Text) :
    ((reader ⟨s,ks,false⟩).lookup k).2 = reader ⟨s,ks ++ [k],false⟩ := by
  have hk := keptKeys_concat s ks k false
  have hkeys : KeyedList.keys (cache ⟨s,ks,false⟩) = keptKeys ⟨s,ks,false⟩ := keys_cache _ rfl
  cases hm : (reader ⟨s,ks,false⟩).cache.lookup k with
  | some vs =>
    have hmem : k ∈ keptKeys ⟨s,ks,false⟩ := by
      rw [← hkeys]
      by_contra hn
      rw [← KeyedList.lookup_eq_none_iff] at hn
      cases hn.symm.trans hm
    rw [if_neg fun hn => hn.2 (mem_keptKeys.mp hmem).1] at hk
    rw [Reader.lookup_of_kept hm]
    simp [reader,cache,hk]
  | none =>
    have hmem : k ∉ keptKeys ⟨s,ks,false⟩ := hkeys ▸ KeyedList.lookup_eq_none_iff.mp hm
    rw [Reader.lookup_of_missing hm]
    cases hr : Reader.isRepeated s k with
    | false =>
      rw [if_neg (by simp [hr])] at hk
      simp [reader,cache,hk,hr]
    | true =>
      have hnew : k ∉ ks := fun h => hmem (mem_keptKeys.mpr ⟨h,hr⟩)
      rw [if_pos ⟨hr,hnew⟩] at hk
      simp [reader,cache,hk,hr]

theorem lookup_reader (h : History) (k : Text) :
    (h.reader.lookup k).2 = reader { h with asked := h.asked ++ [k] } := by
  obtain ⟨s,ks,p⟩ := h
  cases p with
  | true => exact lookup_reader_parsed s ks k
  | false => exact lookup_reader_unparsed s ks k

theorem parseAll_reader (h : History) : h.reader.parseAll = reader { h with parsed := true } := by
  obtain ⟨s,ks,p⟩ := h
  cases p <;> rfl

theorem answer_reader (h : History) (q : Request) : (h.reader.answer q).2 = (h.step q).reader := by
  cases q with
  | lookup k | parameter k | declarations k => exact lookup_reader h k
  | parseAll | parameters | occurrences => exact parseAll_reader h
  | setContent s | content => rfl

theorem run_reader (h : History) (qs : List Request) : h.reader.run qs = (h.run qs).reader := by
  induction qs generalizing h with
  | nil => rfl
  | cons q qs ih =>
    have hq := ih (h.step q)
    rw [← answer_reader] at hq
    exact hq

end History

namespace Reader

/-- Whatever was asked of a reader, each key is kept once and with values; after a full parse what is
kept is that of the text at hand, before one it is the decoded values of keys that are nowhere bare and
occur more than once: exactly those that were looked up since the text was set, in that order. -/
theorem cache_of_run (s : Text) (qs : List Request) :
    let r := (ofText s).run qs
    let h := (History.ofText s).run qs
    r.text = h.text ∧ r.complete = h.parsed ∧
    (KeyedList.keys r.cache).Nodup ∧ (∀ e ∈ r.cache, e.2 ≠ []) ∧
    (r.complete = true → r.cache = (ofText r.text).parseAll.cache) ∧
    (r.complete = false → KeyedList.keys r.cache = h.keptKeys ∧
      ∀ e ∈ r.cache, Tag.isKey e.1 = true ∧ Tag.hasBare r.text e.1 = false ∧
        e.2 = (Tag.valuesOf r.text e.1).map Value.ofText ∧ 2 ≤ e.2.length) := by
  intro r h
  have hc : Coherent r := coherent_run (coherent_ofText s) qs
  have hr : r = h.reader := History.run_reader (.ofText s) qs
  have hscan (hp : r.complete = false) (e) (he : e ∈ r.cache) :=
    hc.scanned hp e.1 e.2 ((KeyedList.lookup_eq_some_iff hc.nodup).mpr he)
  refine ⟨by rw [hr]; rfl,by rw [hr]; rfl,hc.nodup,fun e he => ?_,hc.full,fun hp => ⟨?_,hscan hp⟩⟩
  · cases hp : r.complete with
    | true =>
      rw [hc.full hp] at he
      exact Annotations.values_ne_nil_of_mem he
    | false =>
      have hl := (hscan hp e he).2.2.2
      exact List.ne_nil_of_length_pos (by omega)
  · rw [hr] at hp ⊢
    exact History.keys_cache h hp

example : KeyedList.keys ((ofText "@name x\n@tag a\n@tag b".toList).run [.lookup "name".toList,
    .lookup "tag".toList,.declarations "tag".toList]).cache = ["tag".toList] := by decide

end Reader
end DocTags
