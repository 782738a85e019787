import DocTags.Proofs.Caching
import DocTags.Proofs.FileRuns

/-! The declarations of a tag before and after a full parse. The two look-ups differ only where a bare
occurrence stands among others: then one gives true and the other a list with true in it, and neither
declares anything. -/
namespace DocTags

namespace VariableDeclaration

theorem exists_ofTag_eq_error {vs : List Value} (h : .bool true ∈ vs) :
    ∃ f, ofTag (some (.list vs)) = .error f := by
  have hv : ofTag (some (.list vs)) = vs.mapM ofValue := rfl
  cases ho : vs.mapM ofValue with
  | error f => exact ⟨f,hv.trans ho⟩
  | ok ds =>
    obtain ⟨d,hd⟩ := Outcome.exists_mapM_iff.mp ⟨ds,ho⟩ (.bool true) h
    cases hd

end VariableDeclaration

namespace Reader

theorem lookup_parseAll (s k : Text) :
    ((ofText s).parseAll.lookup k).1 = ((Annotations.ofText s).lookup k).map Annotations.collapse :=
  (lookup_eq_plain (coherent_full s) k).trans (parameters_fresh_lookup s k)

/-- The values that a new reader and a full parse give to a key are the same, or the key is bare and
occurs again, and the values are true and a list with true in it. -/
theorem lookup_fresh_or_mixed (s : Text) {k : Text} (hk : Tag.isKey k = true) :
    ((ofText s).lookup k).1 = ((ofText s).parseAll.lookup k).1 ∨
      Tag.BareOccurrence s k ∧ ((ofText s).lookup k).1 = some (.bool true) ∧
        ∃ vs, (Annotations.ofText s).lookup k = some vs ∧ 2 ≤ vs.length ∧ .bool true ∈ vs ∧
          ((ofText s).parseAll.lookup k).1 = some (.list vs) := by
  rw [lookup_fresh,lookup_parseAll,← Tag.hasBare_iff_bareOccurrence]
  cases hb : Tag.hasBare s k with
  | false => exact Or.inl (scan_of_not_hasBare hk hb)
  | true =>
    obtain ⟨vs,hv,ht⟩ := true_mem_of_hasBare hk hb
    rw [scan_of_hasBare hk hb,hv]
    match vs,ht with
    | [v],ht => exact Or.inl (by rw [← List.mem_singleton.mp ht]; rfl)
    | v :: w :: vs,ht => exact Or.inr ⟨rfl,rfl,_,rfl,by simp,ht,rfl⟩

theorem declarations_eq (r : Reader) (tag : Text) :
    (r.declarations tag).1 =
      (VariableDeclaration.ofTag (r.lookup tag).1).mapError (.invalidDeclaration tag) := rfl

theorem exists_fault_of_declarations {r : Reader} {tag : Text} {e : ReadError}
    (h : (r.declarations tag).1 = .error e) : ∃ f, e = .invalidDeclaration tag f := by
  rw [declarations_eq] at h
  cases ho : VariableDeclaration.ofTag (r.lookup tag).1 with
  | ok ds =>
    rw [ho] at h
    cases h
  | error f =>
    rw [ho] at h
    exact ⟨f,(Except.error.inj h).symm⟩

/-- Declarations do not depend on whether a full parse ran: both ways they are the same list, or both
ways there are none. Then both errors name the tag, and they give different reasons only if the tag is
bare somewhere and occurs again. -/
theorem declarations_fresh_and_parsed (s tag : Text) (hk : Tag.isKey tag = true) :
    let fresh := ((ofText s).declarations tag).1
    let parsed := ((ofText s).parseAll.declarations tag).1
    let occurrences := ((ofText s).occurrences.1.lookup tag).getD []
    (∀ ds, fresh = .ok ds ↔ parsed = .ok ds) ∧
      ∀ e e', fresh = .error e → parsed = .error e' →
        ∃ f f', e = .invalidDeclaration tag f ∧ e' = .invalidDeclaration tag f' ∧
          (f ≠ f' → Tag.BareOccurrence s tag ∧ 2 ≤ occurrences.length) := by
  intro fresh parsed occurrences
  rcases lookup_fresh_or_mixed s hk with h | ⟨hb,h,vs,hv,hl,ht,h'⟩
  · have he : fresh = parsed := by
      simp only [fresh,parsed,declarations_eq,h]
    refine ⟨fun ds => by rw [he],fun e e' hf hp => ?_⟩
    obtain ⟨f,rfl⟩ := exists_fault_of_declarations hf
    obtain rfl := Except.error.inj ((he.symm.trans hf).symm.trans hp)
    exact ⟨f,f,rfl,rfl,fun hn => absurd rfl hn⟩
  · obtain ⟨f,hf⟩ := VariableDeclaration.exists_ofTag_eq_error ht
    have hfresh : fresh = .error (.invalidDeclaration tag (.notString "boolean".toList)) := by
      simp only [fresh,declarations_eq,h]
      rfl
    have hparsed : parsed = .error (.invalidDeclaration tag f) := by
      simp only [parsed,declarations_eq,h',hf]
      rfl
    have ho : 2 ≤ occurrences.length := by
      have hes : (ofText s).occurrences.1 = Annotations.ofText s := rfl
      simpa only [occurrences,hes,hv,Option.getD_some] using hl
    rw [hfresh,hparsed]
    refine ⟨fun ds => by simp,fun e e' he he' => ?_⟩
    exact ⟨_,f,(Except.error.inj he).symm,(Except.error.inj he').symm,fun _ => ⟨hb,ho⟩⟩

theorem declarations_of_empty_and_bare :
    let s := "@var \"\"\n@var \n@vars int $x".toList
    let tag := "var".toList
    let vars := "vars".toList
    Tag.isKey tag = true ∧ Tag.isKey vars = true ∧
      ((ofText s).declarations tag).1 =
        .error (.invalidDeclaration tag (.notString "boolean".toList)) ∧
      ((ofText s).parseAll.declarations tag).1 = .error (.invalidDeclaration tag .empty) ∧
      Tag.BareOccurrence s tag ∧
      ((ofText s).parseAll.declarations vars).1 = .ok [⟨"int".toList,"$x".toList⟩] := by
  intro s tag vars
  have hk : Tag.isKey tag = true := by decide
  have hk' : Tag.isKey vars = true := by decide
  have hf : ((ofText s).declarations tag).1 =
      .error (.invalidDeclaration tag (.notString "boolean".toList)) := rfl
  have hp : ((ofText s).parseAll.declarations tag).1 = .error (.invalidDeclaration tag .empty) := rfl
  have hv : ((ofText s).declarations vars).1 = .ok [⟨"int".toList,"$x".toList⟩] := rfl
  obtain ⟨f,f',he,he',hb⟩ := (declarations_fresh_and_parsed s tag hk).2 _ _ hf hp
  obtain ⟨-,rfl⟩ := ReadError.invalidDeclaration.inj he
  obtain ⟨-,rfl⟩ := ReadError.invalidDeclaration.inj he'
  exact ⟨hk,hk',hf,hp,(hb (by decide)).1,((declarations_fresh_and_parsed s vars hk').1 _).mp hv⟩

end Reader
end DocTags
