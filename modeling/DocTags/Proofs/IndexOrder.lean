import DocTags.Proofs.IndexedNames

/-! The order of an index. The landmarks of a source are met one after the other; each of them leaves
the open class in the index and every method behind its class. -/
namespace DocTags

namespace SourceIndex

open SourcePattern

def MethodsFollow (rs : List Reference) : Prop :=
  ∀ before c f after, rs = before ++ ⟨c,some f⟩ :: after → ⟨c,none⟩ ∈ before

theorem methodsFollow_nil : MethodsFollow [] := by
  intro before c f after h
  cases before <;> cases h

theorem MethodsFollow.concat {rs : List Reference} {r : Reference} (h : MethodsFollow rs)
    (hr : ∀ c f, r = ⟨c,some f⟩ → ⟨c,none⟩ ∈ rs) : MethodsFollow (rs ++ [r]) := by
  intro before c f after he
  rcases List.eq_nil_or_concat' after with rfl | ⟨init,last,rfl⟩
  · obtain ⟨rfl,hlast⟩ := List.append_inj' he rfl
    exact hr c f (List.cons.inj hlast).1
  · rw [← List.cons_append,← List.append_assoc] at he
    exact h before c f init (List.append_inj' he rfl).1

/-- What the reading of a source keeps: the open class is in the index, and methods stand behind their
classes. -/
structure Progress.Ordered (p : Progress) : Prop where
  opened : ∀ c, p.openClass = some c → ⟨c,none⟩ ∈ KeyedList.keys p.entries
  follow : MethodsFollow (KeyedList.keys p.entries)

section

variable {es : List (Reference × Text)} (r : Reference) (t : Text)

theorem mem_keys_put {r' : Reference} :
    r' ∈ KeyedList.keys (KeyedList.put r t es) ↔ r' ∈ KeyedList.keys es ∨ r' = r := by
  rw [KeyedList.keys_put]
  split
  · rename_i h
    exact ⟨Or.inl,fun h' => h'.elim id fun he => he ▸ h⟩
  · simp

/-- A class can be set at any time, a method once its class is there. -/
theorem MethodsFollow.put (h : MethodsFollow (KeyedList.keys es))
    (hr : ∀ c f, r = ⟨c,some f⟩ → ⟨c,none⟩ ∈ KeyedList.keys es) :
    MethodsFollow (KeyedList.keys (KeyedList.put r t es)) := by
  rw [KeyedList.keys_put]
  split
  · exact h
  · exact h.concat hr

end

theorem ordered_start : Progress.Ordered ⟨none,[]⟩ := ⟨by simp,methodsFollow_nil⟩

theorem Progress.Ordered.step {p : Progress} (h : p.Ordered) (comment : Nat → Text)
    (a : Nat × Landmark) : (p.step comment a).Ordered := by
  obtain ⟨i,l⟩ := a
  cases l with
  | classDeclaration c =>
    refine ⟨fun d hd => ?_,h.follow.put _ _ fun d f he => ?_⟩
    · obtain rfl := Option.some.inj hd
      exact (mem_keys_put _ _).mpr (Or.inr rfl)
    · cases he
  | functionDeclaration f =>
    cases ho : p.openClass with
    | none =>
      have hs : p.step comment (i,.functionDeclaration f) = p := by simp only [Progress.step,ho]
      rw [hs]
      exact h
    | some c =>
      have hs : p.step comment (i,.functionDeclaration f) =
          { p with entries := KeyedList.put ⟨c,some f⟩ (comment i) p.entries } := by
        simp only [Progress.step,ho]
      rw [hs]
      refine ⟨fun d hd => (mem_keys_put _ _).mpr (Or.inl (h.opened d hd)),?_⟩
      refine h.follow.put _ _ fun d g he => ?_
      obtain rfl : c = d := congrArg Reference.className he
      exact h.opened c ho
  | classEnd => exact ⟨fun d hd => (Option.some_ne_none d hd.symm).elim,h.follow⟩

theorem Progress.Ordered.run {p : Progress} (h : p.Ordered) (comment : Nat → Text)
    (ls : List (Nat × Landmark)) : (ls.foldl (Progress.step comment) p).Ordered := by
  induction ls generalizing p with
  | nil => exact h
  | cons a ls ih => exact ih (h.step comment a)

theorem methodsFollow_references (s : Text) : MethodsFollow (ofText s).references :=
  (ordered_start.run _ _).follow

/-- The references of an index do not repeat and name classes and methods by identifiers, so none of
them is empty and each is read back from its text. Each method stands behind its class, and whatever
has a comment is among the references. -/
theorem references_wellFormed (s : Text) :
    (ofText s).references.Nodup ∧
    (∀ r ∈ (ofText s).references, IsName r.className ∧ (∀ m, r.method = some m → IsName m) ∧
      r.isEmpty = false ∧ Reference.ofText r.toText = r) ∧
    (∀ before c f after, (ofText s).references = before ++ ⟨c,some f⟩ :: after →
      ⟨c,none⟩ ∈ before) ∧
    ∀ r, (ofText s).comment r ≠ [] → r ∈ (ofText s).references := by
  refine ⟨nodup_references s,fun r hr => ?_,methodsFollow_references s,fun r hr => ?_⟩
  · have hn := named_of_mem_references hr
    exact ⟨hn.className,hn.method,hn.isEmpty,hn.ofText_toText⟩
  · by_contra h
    exact hr (comment_of_notMem_references h)

def reopened : Text :=
  "class A_1\n\x7b\n\x7d\nfinal class B\n\x7b\nfunction f() \x7b\x7d\n\x7d\nfunction h() \x7b\x7d\n".toList ++
    "class A_1\n\x7b\n    /** @g */\n    public static function &g() \x7b\x7d\n\x7d\n".toList

theorem references_reopened :
    let a := "A_1".toList
    (ofText reopened).references =
        [⟨a,none⟩,⟨['B'],none⟩,⟨['B'],some ['f']⟩] ++ ⟨a,some ['g']⟩ :: [] ∧
      (⟨a,some ['g']⟩ : Reference) ∈ (ofText reopened).references ∧
      IsName a ∧ IsName ['g'] ∧ Reference.ofText "A_1::g".toList = ⟨a,some ['g']⟩ ∧
      ⟨a,none⟩ ∈ [⟨a,none⟩,⟨['B'],none⟩,(⟨['B'],some ['f']⟩ : Reference)] ∧
      (ofText reopened).comment ⟨a,some ['g']⟩ ≠ [] := by
  intro a
  have hr : (ofText reopened).references =
      [⟨a,none⟩,⟨['B'],none⟩,⟨['B'],some ['f']⟩] ++ ⟨a,some ['g']⟩ :: [] := by
    rw [ofText_eq_index]
    rfl
  have hc : (ofText reopened).comment ⟨a,some ['g']⟩ ≠ [] := by
    rw [ofText_eq_index]
    decide
  obtain ⟨-,hnames,hfollow,hcommented⟩ := references_wellFormed reopened
  have hm := hcommented _ hc
  obtain ⟨hn,hmethod,-,ht⟩ := hnames _ hm
  exact ⟨hr,hm,hn,hmethod ['g'] rfl,ht,hfollow _ _ _ _ hr,hc⟩

end SourceIndex
end DocTags
