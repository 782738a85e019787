import DocTags.Proofs.DeclarationPaths

/-! Declarations are read all or none. Each item of a tag is told by its text, the first item that is no
text with something in it ends the reading, and a reading leaves no trace in what is answered later. -/
namespace DocTags

namespace VariableDeclaration

/-- What a text declares: a name alone, or a type, a space and a name, perhaps with a space and any text
behind it. The parts may be empty, but not the whole. -/
inductive Declares : Text → VariableDeclaration → Prop
  | name {n : Text} (hn : n ≠ []) (h : ' ' ∉ n) : Declares n ⟨"string".toList,n⟩
  | typed {t n : Text} (ht : ' ' ∉ t) (hn : ' ' ∉ n) : Declares (t ++ ' ' :: n) ⟨t,n⟩
  | described {t n : Text} (ht : ' ' ∉ t) (hn : ' ' ∉ n) (rest : Text) :
    Declares (t ++ ' ' :: (n ++ ' ' :: rest)) ⟨t,n⟩

inductive Faulty : Value → DeclarationFault → Prop
  | empty : Faulty (.string []) .empty
  | notString {v : Value} (h : ∀ s, v ≠ .string s) : Faulty v (.notString v.kind)

theorem ofText_of_cut {t : Text} (ht : ' ' ∉ t) (rest : Text) :
    ofText (t ++ ' ' :: rest) = ⟨t,rest.takeWhile (· ≠ ' ')⟩ := by
  have hc := Text.cut?_singleton_eq_some_iff.mpr ⟨(rfl : t ++ ' ' :: rest = _),ht⟩
  rw [ofText,hc]

theorem takeWhile_name {n more : Text} (hn : ' ' ∉ n)
    (hm : ∀ c, more.head? = some c → c = ' ') : (n ++ more).takeWhile (· ≠ ' ') = n := by
  refine Text.takeWhile_append_eq (fun c hc => ?_) fun c hc => by simp [hm c hc]
  have hne : c ≠ ' ' := fun he => hn (he ▸ hc)
  simpa using hne

theorem Declares.ofText_eq {s : Text} {d : VariableDeclaration} (h : Declares s d) :
    ofText s = d := by
  cases h with
  | name _ h => rw [ofText,Text.cut?_singleton_eq_none_iff.mpr h,defaultType]
  | @typed t n ht hn =>
    have hw : (n ++ []).takeWhile (· ≠ ' ') = n := takeWhile_name hn (by simp)
    rw [List.append_nil] at hw
    rw [ofText_of_cut ht,hw]
  | described ht hn rest => rw [ofText_of_cut ht,takeWhile_name hn (by simp)]

theorem declares_ofText {s : Text} (hs : s ≠ []) : Declares s (ofText s) := by
  cases hc : Text.cut? [' '] s with
  | none =>
    rw [ofText,hc]
    exact .name hs (Text.cut?_singleton_eq_none_iff.mp hc)
  | some p =>
    obtain ⟨t,rest⟩ := p
    obtain ⟨rfl,ht⟩ := Text.cut?_singleton_eq_some_iff.mp hc
    cases hr : Text.cut? [' '] rest with
    | none =>
      have hn := Text.cut?_singleton_eq_none_iff.mp hr
      have h : Declares (t ++ ' ' :: rest) ⟨t,rest⟩ := .typed ht hn
      rwa [h.ofText_eq]
    | some q =>
      obtain ⟨n,more⟩ := q
      obtain ⟨rfl,hn⟩ := Text.cut?_singleton_eq_some_iff.mp hr
      have h : Declares (t ++ ' ' :: (n ++ ' ' :: more)) ⟨t,n⟩ := .described ht hn more
      rwa [h.ofText_eq]

theorem Declares.ne_nil {s : Text} {d : VariableDeclaration} (h : Declares s d) : s ≠ [] := by
  cases h with
  | name hn _ => exact hn
  | typed | described => simp

theorem ofValue_string {s : Text} (hs : s ≠ []) : ofValue (.string s) = .ok (ofText s) := by
  cases s with
  | nil => exact absurd rfl hs
  | cons c s => rfl

theorem ofValue_of_not_string {v : Value} (h : ∀ s, v ≠ .string s) :
    ofValue v = .error (.notString v.kind) := by
  cases v with
  | string s => exact absurd rfl (h s)
  | _ => rfl

theorem ofValue_cases (v : Value) :
    (∃ s, v = .string s ∧ s ≠ [] ∧ ofValue v = .ok (ofText s)) ∨
      ∃ f, Faulty v f ∧ ofValue v = .error f := by
  by_cases h : ∃ s, v = .string s
  · obtain ⟨s,rfl⟩ := h
    by_cases hs : s = []
    · subst hs
      exact Or.inr ⟨.empty,.empty,rfl⟩
    · exact Or.inl ⟨s,rfl,hs,ofValue_string hs⟩
  · have hn : ∀ s, v ≠ .string s := fun s hs => h ⟨s,hs⟩
    exact Or.inr ⟨_,.notString hn,ofValue_of_not_string hn⟩

theorem Faulty.ofValue_eq {v : Value} {f : DeclarationFault} (h : Faulty v f) :
    ofValue v = .error f := by
  cases h with
  | empty => rfl
  | notString h => exact ofValue_of_not_string h

theorem ofValue_eq_ok_iff {v : Value} {d : VariableDeclaration} :
    ofValue v = .ok d ↔ ∃ s, v = .string s ∧ Declares s d := by
  constructor
  · intro h
    rcases ofValue_cases v with ⟨s,rfl,hs,ho⟩ | ⟨f,-,hf⟩
    · obtain rfl := Except.ok.inj (ho.symm.trans h)
      exact ⟨s,rfl,declares_ofText hs⟩
    · cases hf.symm.trans h
  · rintro ⟨s,rfl,hd⟩
    rw [ofValue_string hd.ne_nil,hd.ofText_eq]

theorem ofValue_eq_error_iff {v : Value} {f : DeclarationFault} :
    ofValue v = .error f ↔ Faulty v f := by
  constructor
  · intro h
    rcases ofValue_cases v with ⟨s,-,-,ho⟩ | ⟨g,hg,ho⟩
    · cases ho.symm.trans h
    · obtain rfl := Except.error.inj (ho.symm.trans h)
      exact hg
  · exact Faulty.ofValue_eq

theorem exists_ofValue_iff {v : Value} :
    (∃ d, ofValue v = .ok d) ↔ ∃ n, n ≠ [] ∧ v = .string n := by
  constructor
  · rintro ⟨d,h⟩
    obtain ⟨n,hv,hd⟩ := ofValue_eq_ok_iff.mp h
    exact ⟨n,hd.ne_nil,hv⟩
  · rintro ⟨n,hn,rfl⟩
    exact ⟨_,ofValue_string hn⟩

end VariableDeclaration

namespace Reader

open VariableDeclaration

/-- A reading of declarations cannot be noticed later, whether it succeeds or fails. -/
theorem answers_behind_declarations {r : Reader} (h : Coherent r) (tag : Text) (qs : List Request) :
    (r.declarations tag).2.answers qs = r.answers qs := by
  obtain ⟨hc,hp⟩ := coherent_lookup h tag
  have hd : (r.declarations tag).2 = (r.lookup tag).2 := rfl
  rw [hd,answers_eq_plain hc,hp,answers_eq_plain h]

theorem declarations_eq_ok_iff {r : Reader} {tag : Text} {ds : List VariableDeclaration} :
    (r.declarations tag).1 = .ok ds ↔ (items (r.lookup tag).1).mapM ofValue = .ok ds := by
  rw [declarations_eq,ofTag]
  cases (items (r.lookup tag).1).mapM ofValue <;> simp [Except.mapError]

theorem declarations_eq_error_iff {r : Reader} {tag : Text} {e : ReadError} :
    (r.declarations tag).1 = .error e ↔ ∃ f,
      (items (r.lookup tag).1).mapM ofValue = .error f ∧ e = .invalidDeclaration tag f := by
  rw [declarations_eq,ofTag]
  cases (items (r.lookup tag).1).mapM ofValue <;> simp [Except.mapError,eq_comm]

/-- Whatever was asked before, declarations are read if every item of the tag is a text with something in
it; then there is one for each item, in order, and it is what the text declares. Otherwise the first
item that is none decides the error, which names the tag. Later answers do not depend on the reading. -/
theorem declarations_all_or_nothing (s : Text) (qs : List Request) (tag : Text) :
    let r := (ofText s).run qs
    let items : List Value := match (r.lookup tag).1 with
      | none | some .null => []
      | some (.list vs) => vs
      | some v => [v]
    let result := (r.declarations tag).1
    ((∃ ds, result = .ok ds) ↔ ∀ v ∈ items, ∃ t, t ≠ [] ∧ v = .string t) ∧
    (∀ ds, result = .ok ds ↔
      List.Forall₂ (fun v d => ∃ t, v = .string t ∧ Declares t d) items ds) ∧
    (∀ e, result = .error e ↔ ∃ before v after f, items = before ++ v :: after ∧
      (∀ b ∈ before, ∃ t, t ≠ [] ∧ b = .string t) ∧ Faulty v f ∧ e = .invalidDeclaration tag f) ∧
    ∀ qs', (r.declarations tag).2.answers qs' = r.answers qs' := by
  intro r is result
  have hi : VariableDeclaration.items (r.lookup tag).1 = is := rfl
  refine ⟨?_,fun ds => ?_,fun e => ?_,
    answers_behind_declarations (coherent_run (coherent_ofText s) qs) tag⟩
  · simp only [result,declarations_eq_ok_iff,hi,Outcome.exists_mapM_iff,exists_ofValue_iff]
  · simp only [result,declarations_eq_ok_iff,hi,Outcome.mapM_eq_ok_iff,ofValue_eq_ok_iff]
  · simp only [result,declarations_eq_error_iff,hi,Outcome.mapM_eq_error_iff,
      exists_ofValue_iff,ofValue_eq_error_iff]
    constructor
    · rintro ⟨f,⟨before,v,after,his,hb,hf⟩,rfl⟩
      exact ⟨before,v,after,f,his,hb,hf,rfl⟩
    · rintro ⟨before,v,after,f,his,hb,hf,rfl⟩
      exact ⟨f,⟨before,v,after,his,hb,hf⟩,rfl⟩

example : ((ofText "@p [\"int $n rows\",\"\",5]".toList).declarations ['p']).1 =
    .error (.invalidDeclaration ['p'] .empty) := rfl

end Reader
end DocTags
