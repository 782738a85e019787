import DocTags.Proofs.LineAutomaton
import DocTags.Proofs.ReferenceTexts

/-! The names in an index are identifiers, so the text of an indexed reference names it: reading the
text gives the reference back, and no two references have one text. -/
namespace DocTags

namespace SourcePattern

theorem toNat_of_isNameChar {c : Char} (h : isNameChar c = true) :
    48 ≤ c.toNat ∧ c.toNat ≤ 57 ∨ 65 ≤ c.toNat ∧ c.toNat ≤ 90 ∨ c.toNat = 95 ∨
      97 ≤ c.toNat ∧ c.toNat ≤ 122 := by
  have hn : isNameChar c = (((decide (65 ≤ c.val ∧ c.val ≤ 90) ||
      (decide (97 ≤ c.val) && decide (c.val ≤ 122))) ||
      (decide (48 ≤ c.val) && decide (c.val ≤ 57))) || decide (c = '_')) := rfl
  simp only [hn,Bool.or_eq_true,Bool.and_eq_true,decide_eq_true_eq,UInt32.le_iff_toNat_le] at h
  rcases h with ((h | h) | h) | rfl
  · exact Or.inr (Or.inl h)
  · exact Or.inr (Or.inr (Or.inr h))
  · exact Or.inl h
  · exact Or.inr (Or.inr (Or.inl rfl))

theorem isWhiteSpace_of_isNameChar {c : Char} (h : isNameChar c = true) : isWhiteSpace c = false := by
  have hc := toNat_of_isNameChar h
  simp only [isWhiteSpace,whiteSpaceRanges,List.any_cons,List.any_nil,Bool.or_eq_false_iff,
    Bool.and_eq_false_iff,decide_eq_false_iff_not,and_true]
  omega

theorem IsName.trimmed {n : Text} (h : IsName n) : Text.Trimmed n := by
  have hn {c : Char} (hc : c ∈ n) : isWhiteSpace c = false :=
    isWhiteSpace_of_isNameChar (h.isNameChar_of_mem hc)
  exact ⟨fun _ hc => hn (List.mem_of_head? hc),fun _ hc => hn (List.mem_of_getLast? hc)⟩

end SourcePattern

namespace Reference

open SourcePattern

/-- A reference by identifiers. -/
structure Named (r : Reference) : Prop where
  className : IsName r.className
  method : ∀ m, r.method = some m → IsName m

namespace Named

variable {r : Reference} (h : r.Named)
include h

theorem isEmpty : r.isEmpty = false := by
  have hc := h.className.ne_nil
  have hm : r.method ≠ some [] := fun hm => (h.method [] hm).ne_nil rfl
  simp [Reference.isEmpty,hc,hm]

theorem ofText_toText : Reference.ofText r.toText = r := by
  obtain ⟨c,m⟩ := r
  have hc : ':' ∉ c := h.className.notMem rfl
  have hn : ¬ separator <:+: c := fun hs => hc (hs.subset (by simp [separator]))
  cases m with
  | none => exact ofText_toText_class_iff.mpr ⟨h.className.trimmed,hn⟩
  | some m =>
    have hl : c.getLast? ≠ some ':' := fun hl => hc (List.mem_of_getLast? hl)
    exact ofText_toText_method_iff.mpr ⟨h.className.trimmed,hn,(h.method m rfl).trimmed,hl⟩

theorem toText_eq_iff {r' : Reference} (h' : r'.Named) : r.toText = r'.toText ↔ r = r' := by
  constructor
  · intro ht
    rw [← h.ofText_toText,ht,h'.ofText_toText]
  · rintro rfl
    rfl

end Named

end Reference

namespace LineScan

open SourcePattern SourceIndex

theorem isName_openAfter {o : Option Text} {line : Text} (hl : '\n' ∉ line)
    (ho : ∀ c, o = some c → IsName c) : ∀ c, openAfter o line = some c → IsName c := by
  intro c hc
  unfold openAfter at hc
  cases hm : landmark? line with
  | none => exact ho c (by simpa [hm] using hc)
  | some l =>
    cases l with
    | classDeclaration d =>
      obtain rfl : d = c := by simpa [hm] using hc
      obtain ⟨rest,-,hn⟩ := (landmark?_eq_classDeclaration_iff hl).mp hm
      exact hn.1
    | functionDeclaration f => exact ho c (by simpa [hm] using hc)
    | classEnd => simp [hm] at hc

theorem named_of_declared? {o : Option Text} {line : Text} {r : Reference} (hl : '\n' ∉ line)
    (ho : ∀ c, o = some c → IsName c) (h : declared? o line = some r) : r.Named := by
  unfold declared? at h
  cases hm : landmark? line with
  | none => simp [hm] at h
  | some l =>
    cases l with
    | classDeclaration c =>
      obtain rfl : ⟨c,none⟩ = r := by simpa [hm] using h
      obtain ⟨rest,-,hn⟩ := (landmark?_eq_classDeclaration_iff hl).mp hm
      exact ⟨hn.1,fun m hm => by cases hm⟩
    | functionDeclaration f =>
      obtain ⟨c,hc,rfl⟩ : ∃ c, o = some c ∧ ⟨c,some f⟩ = r := by simpa [hm] using h
      obtain ⟨rest,-,hn⟩ := (landmark?_eq_functionDeclaration_iff hl).mp hm
      refine ⟨ho c hc,fun m hm => ?_⟩
      obtain rfl := Option.some.inj hm
      obtain hn | ⟨b,u,-,-,hn⟩ := hn
      · exact hn.1
      · exact hn.1
    | classEnd => simp [hm] at h

/-- Lines declare references by identifiers, whatever class of that kind is open before them. -/
theorem named_of_mem_declarations {ls : List (Nat × Text)} (hl : ∀ e ∈ ls, '\n' ∉ e.2)
    {o : Option Text} (ho : ∀ c, o = some c → IsName c) {d : Nat × Reference}
    (h : d ∈ declarations o ls) : d.2.Named := by
  induction ls generalizing o with
  | nil => cases h
  | cons e ls ih =>
    have he : '\n' ∉ e.2 := hl e (by simp)
    have hls : ∀ e ∈ ls, '\n' ∉ e.2 := fun e he => hl e (by simp [he])
    have hn := isName_openAfter he ho
    rw [declarations] at h
    cases hd : declared? o e.2 with
    | none =>
      rw [hd] at h
      exact ih hls hn h
    | some r =>
      rw [hd] at h
      rcases List.mem_cons.mp h with rfl | h
      · exact named_of_declared? he ho hd
      · exact ih hls hn h

end LineScan

namespace SourceIndex

open LineScan

theorem named_of_mem_references {s : Text} {r : Reference} (h : r ∈ (ofText s).references) :
    r.Named := by
  rw [references_ofText,List.mem_eraseDups] at h
  obtain ⟨d,hd,rfl⟩ := List.mem_map.mp h
  exact named_of_mem_declarations (fun e he => Text.notMem_of_mem_placed he) (by simp) hd

theorem nodup_references (s : Text) : (ofText s).references.Nodup := by
  rw [references,entries_ofText]
  exact KeyedList.nodup_keys_ofPairs _

theorem comment_of_notMem_references {s : Text} {r : Reference} (h : r ∉ (ofText s).references) :
    (ofText s).comment r = [] := by
  rw [references_ofText,List.mem_eraseDups] at h
  exact comment_of_undeclared h

end SourceIndex
end DocTags
