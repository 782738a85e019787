import DocTags.Command
import DocTags.Proofs.Caching
import DocTags.Proofs.JsonReport

/-! The parameters of a report and the parameters of a reader. The report writes the keys as they stand
in the occurrences, the reader sets them in a table one after the other; the texts are the same since no
key of a full parse stands twice. -/
namespace DocTags

namespace Annotations

theorem parameterField_eq (e : Text × List Value) :
    Reading.parameterField e = (e.1,collapse e.2) := by
  obtain ⟨k,vs⟩ := e
  match vs with
  | [] | [v] | v :: w :: vs => rfl

theorem fields_eq_map_iff {es : Annotations} :
    fields es = es.map Reading.parameterField ↔ (KeyedList.keys es).Nodup := by
  have hm : es.map (fun e => (e.1,collapse e.2)) = es.map Reading.parameterField :=
    List.map_congr_left fun e _ => (parameterField_eq e).symm
  rw [fields,hm,← Reading.keys_parameterField]
  constructor
  · intro h
    rw [← h]
    exact KeyedList.nodup_keys_ofPairs _
  · exact fun h => KeyedList.ofPairs_of_nodup h

end Annotations

namespace Reader

/-- Whatever was asked before, the parameters that a report writes have the text of the parameters that
the reader gives, compact and pretty. No key stands twice, the keys stand in the order of the
occurrences, and each has the value of its only occurrence or the list of all of them. -/
theorem parameters_written_alike (s : Text) (qs : List Request) :
    let r := (ofText s).run qs
    let es := r.occurrences.1
    let fs := r.parameters.1
    let written := (Reading.parameters es).field.2
    Query.everything.read r = .ok (.parameters es) ∧
    written.compact = (Value.object fs).compact ∧
    (∀ level, written.pretty level = (Value.object fs).pretty level) ∧
    (KeyedList.keys fs).Nodup ∧
    List.Forall₂ (fun e f => f.1 = e.1 ∧ e.2 ≠ [] ∧ Reading.Stands e.2 f.2) es fs := by
  intro r es fs written
  have hp := parseAll_eq (coherent_run (coherent_ofText s) qs)
  have he : es = Annotations.ofText r.text := congrArg Reader.cache hp
  have hn : (KeyedList.keys es).Nodup := he ▸ Annotations.nodup_keys_ofText r.text
  have hf : fs = es.map Reading.parameterField := Annotations.fields_eq_map_iff.mpr hn
  have hw : written = .object fs := congrArg Value.object hf.symm
  refine ⟨rfl,by rw [hw],fun level => by rw [hw],KeyedList.nodup_keys_ofPairs _,?_⟩
  rw [hf,List.forall₂_map_right_iff,List.forall₂_same]
  intro e hm
  obtain ⟨hk,hs⟩ := Reading.stands_parameterField e
  exact ⟨hk,Annotations.values_ne_nil_of_mem (he ▸ hm),hs⟩

example : ((ofText "@a [1]\n@b 1\n@b 1".toList).occurrences.1.map Reading.parameterField).map
    (fun f => f.2.compact) = ["[1]".toList,"[1,1]".toList] := by decide

end Reader
end DocTags
