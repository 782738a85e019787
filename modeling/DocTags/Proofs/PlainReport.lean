import DocTags.Proofs.CompactText
import DocTags.Proofs.Grouping
import DocTags.Report

/-! The plain report of a comment is a comment with the same annotations. Lines are read one by one, a
tag line gives back the key and the value it was written for, and grouping undoes the listing of
occurrences. -/
namespace DocTags

namespace Annotations

def pairs (es : Annotations) : List (Text × Value) := es.flatMap fun e => e.2.map (e.1,·)

theorem addAll_append (ps qs : List (Text × Value)) (es : Annotations) :
    addAll (ps ++ qs) es = addAll qs (addAll ps es) := by
  rw [addAll,List.foldl_append,addAll,addAll]

/-- Grouping undoes the listing of occurrences. -/
theorem addAll_pairs {es ds : Annotations} (hk : (KeyedList.keys (ds ++ es)).Nodup)
    (hv : ∀ e ∈ es, e.2 ≠ []) : addAll (pairs es) ds = ds ++ es := by
  induction es generalizing ds with
  | nil => simp [pairs]
  | cons e es ih =>
    have hn := KeyedList.notMem_keys_of_nodup_append hk
    have hk' : (KeyedList.keys (ds ++ [e] ++ es)).Nodup := by simpa using hk
    have hh := ih hk' fun e he => hv e (by simp [he])
    rw [pairs,List.flatMap_cons,addAll_append,addAll_new hn (hv e (by simp))]
    simpa [pairs] using hh

end Annotations

namespace Reading

def tagBody (k : Text) : Value → Text
  | .bool true => k
  | v => k ++ ' ' :: plain v

theorem tagLine_eq (k : Text) (v : Value) : tagLine k v = plainLine ('@' :: tagBody k v) := by
  unfold tagLine tagBody
  split <;> simp

/-- A value that a line gives back. It can be told from its compact text, which holds no other at
sign; a text stands on its line as it is, so it has to be what such a text means. -/
structure Legible (v : Value) : Prop where
  exact : v.exact = true
  shallow : v.depth ≤ Value.depthLimit
  noAt : ∀ t ∈ v.texts, '@' ∉ t
  bare : ∀ s, v = .string s → s ≠ [] ∧ '\n' ∉ s ∧
    (∀ c, s.getLast? = some c → c ≠ ' ' ∧ c ≠ '\t' ∧ c ≠ '\r') ∧ Value.ofText s = .string s

theorem Legible.plain {v : Value} (h : Legible v) :
    (∀ c ∈ Reading.plain v, Tag.isTerminator c = false) ∧
      (∀ c, (Reading.plain v).getLast? = some c → Tag.isBlank c = false) ∧
      Reading.plain v ≠ [] ∧ Value.ofText (Reading.plain v) = v := by
  have hterm {s : Text} (hat : '@' ∉ s) (hlf : '\n' ∉ s) : ∀ c ∈ s, Tag.isTerminator c = false := by
    intro c hc
    have hat' : c ≠ '@' := fun he => hat (he ▸ hc)
    have hlf' : c ≠ '\n' := fun he => hlf (he ▸ hc)
    simp [Tag.isTerminator,hat',hlf']
  cases v with
  | string s =>
    obtain ⟨hne,hlf,hl,hv⟩ := h.bare s rfl
    have hat : '@' ∉ s := h.noAt s (by simp [Value.texts])
    refine ⟨hterm hat hlf,fun c hc => ?_,hne,hv⟩
    obtain ⟨h₁,h₂,h₃⟩ := hl c hc
    simp [Tag.isBlank,h₁,h₂,h₃]
  | _ =>
    refine ⟨hterm (Value.at_notMem_compact h.exact h.noAt) (Value.lineFeed_notMem_compact _),
      fun c hc => ?_,?_,Value.ofText_compact h.exact h.shallow⟩
    · exact Value.isBlank_of_isMark (Value.isMark_getLast_compact h.exact hc)
    · obtain ⟨c,s,hc,-⟩ := (Value.written_compact h.exact).exists_cons
      exact fun he => List.cons_ne_nil c s (hc.symm.trans he)

theorem entryOf_tagBody {k : Text} {v : Value} (hk : Tag.isKey k = true) (h : Legible v) :
    Annotations.entryOf (Tag.ofSegment (tagBody k v)) = (k,v) := by
  unfold tagBody
  split
  · rw [Tag.ofSegment_eq_iff.mpr (.bare hk),Annotations.entryOf]
  · rw [Tag.ofSegment_eq_iff.mpr (.valued hk),Annotations.entryOf,h.plain.2.2.2]

theorem isTerminator_tagBody {k : Text} {v : Value} (hk : Tag.isKey k = true) (h : Legible v) :
    ∀ c ∈ tagBody k v, Tag.isTerminator c = false := by
  have hkey : ∀ c ∈ k, Tag.isTerminator c = false := fun c hc =>
    Tag.isTerminator_of_isKeyChar (Tag.isKeyChar_of_mem hk hc)
  unfold tagBody
  split
  · exact hkey
  · intro c hc
    rcases List.mem_append.mp hc with hc | hc
    · exact hkey c hc
    · rcases List.mem_cons.mp hc with rfl | hc
      · rfl
      · exact h.plain.1 c hc

theorem isBlank_getLast_tagBody {k : Text} {v : Value} (hk : Tag.isKey k = true) (h : Legible v) :
    ∀ c, (tagBody k v).getLast? = some c → Tag.isBlank c = false := by
  unfold tagBody
  split
  · exact fun c hc =>
      Tag.isBlank_of_isKeyChar (Tag.isKeyChar_of_mem hk (List.mem_of_getLast? hc))
  · intro c hc
    obtain ⟨-,hl,hne,-⟩ := h.plain
    have hd := List.getLast?_eq_some_getLast hne
    refine hl c (hd.trans ?_)
    simpa [List.getLast?_append,List.getLast?_cons,hd] using hc

theorem entries_tagLine {k : Text} {v : Value} (hk : Tag.isKey k = true) (h : Legible v)
    (rest : Text) : (Tag.all (tagLine k v ++ rest)).map Annotations.entryOf =
      (k,v) :: (Tag.all rest).map Annotations.entryOf := by
  have hl : tagLine k v ++ rest = ([' ',' '] ++ '@' :: tagBody k v) ++ '\n' :: rest := by
    simp [tagLine_eq,plainLine]
  rw [hl,Tag.all_append_lineFeed,Tag.all_append_at (by decide) (isTerminator_tagBody hk h)
    (isBlank_getLast_tagBody hk h)]
  simp [entryOf_tagBody hk h]

theorem entries_tagLines {ps : List (Text × Value)}
    (h : ∀ p ∈ ps, Tag.isKey p.1 = true ∧ Legible p.2) :
    (Tag.all (ps.flatMap fun p => tagLine p.1 p.2)).map Annotations.entryOf = ps := by
  induction ps with
  | nil => rfl
  | cons p ps ih =>
    obtain ⟨hk,hv⟩ := h p (by simp)
    rw [List.flatMap_cons,entries_tagLine hk hv,ih fun p hp => h p (by simp [hp])]

end Reading

namespace Report

theorem plain_parameters (target : Text) (es : Annotations) :
    plain [⟨none,target,.parameters es⟩] =
      target ++ '\n' :: (Annotations.pairs es).flatMap fun p => Reading.tagLine p.1 p.2 := by
  have hl : (Reading.parameters es).plainLines =
      (Annotations.pairs es).map fun p => Reading.tagLine p.1 p.2 := by
    simp [Reading.plainLines,Annotations.pairs,List.map_flatMap,Function.comp_def]
  simp [plain,Entry.header,hl,List.flatMap_def]

/-- What the plain report prints, the reader reads back: the annotations of the report are those it was
written for, with keys, occurrences and values in their order. -/
theorem occurrences_plain {es : Annotations} {target : Text} (ht : '@' ∉ target)
    (hn : (KeyedList.keys es).Nodup)
    (hes : ∀ e ∈ es, Tag.isKey e.1 = true ∧ e.2 ≠ [] ∧ ∀ v ∈ e.2, Reading.Legible v) :
    (Reader.ofText (write .plain [⟨none,target,.parameters es⟩])).occurrences.1 = es := by
  have hp : ∀ p ∈ Annotations.pairs es, Tag.isKey p.1 = true ∧ Reading.Legible p.2 := by
    intro p hp
    obtain ⟨e,he,hp⟩ := List.mem_flatMap.mp hp
    obtain ⟨v,hv,rfl⟩ := List.mem_map.mp hp
    obtain ⟨hk,-,hl⟩ := hes e he
    exact ⟨hk,hl v hv⟩
  show Annotations.ofText (plain [⟨none,target,.parameters es⟩]) = es
  rw [plain_parameters,Annotations.ofText,Annotations.ofTags_eq_addAll,Tag.all_append_lineFeed,
    Tag.all_of_notMem ht,List.nil_append,Reading.entries_tagLines hp]
  have hk : (KeyedList.keys ([] ++ es)).Nodup := hn
  exact Annotations.addAll_pairs hk fun e he => (hes e he).2.1

theorem occurrences_plain_of_nested :
    let target := "Some\nThing".toList
    let field := ("a b".toList,Value.list [.string "say \"hi\"\n".toList,.null,.object []])
    let es := [("flag".toList,[.bool true,.bool false]),
      ("range".toList,[.int (-9223372036854775808),.int 18446744073709551615]),
      ("var".toList,[.string "int $count rows".toList,.object [field],.null])]
    ('@' ∉ target ∧ (KeyedList.keys es).Nodup ∧
        ∀ e ∈ es, Tag.isKey e.1 = true ∧ e.2 ≠ [] ∧ ∀ v ∈ e.2, Reading.Legible v) ∧
      (Reader.ofText (write .plain [⟨none,target,.parameters es⟩])).occurrences.1 = es := by
  intro target field es
  have ht : '@' ∉ target := by decide
  have hn : (KeyedList.keys es).Nodup := by decide
  have hrows : Reading.Legible (.string "int $count rows".toList) := by
    refine ⟨rfl,by decide,by decide,fun s hs => ?_⟩
    cases hs
    refine ⟨by decide,by decide,fun c hc => ?_,rfl⟩
    cases hc
    decide
  have hes : ∀ e ∈ es, Tag.isKey e.1 = true ∧ e.2 ≠ [] ∧ ∀ v ∈ e.2, Reading.Legible v := by
    simp only [es,List.forall_mem_cons,List.not_mem_nil,false_imp_iff,implies_true,and_true]
    refine ⟨⟨by decide,by simp,?_,?_⟩,⟨by decide,by simp,?_,?_⟩,by decide,by simp,hrows,?_,?_⟩
    all_goals exact ⟨rfl,by decide,by decide,fun s hs => by cases hs⟩
  exact ⟨⟨ht,hn,hes⟩,occurrences_plain ht hn hes⟩

end Report
end DocTags
