import DocTags.Proofs.ReadingValues

/-! The depth limit of reading. A text of a value that nests deeper than the limit is refused, wherever
the deep place is, so an annotation with such a text stands for its text. -/
namespace DocTags
namespace ValueReader

open Value

section

variable {fuel depth : Nat} {s t r : Text} {k : Text}

theorem readValue?_list_zero (s : Text) : readValue? (fuel+1) 0 ('[' :: s) = none := by
  have hs : skipSpace ('[' :: s) = '[' :: s := rfl
  rw [readValue?,hs]
  rfl

theorem readValue?_object_zero (s : Text) : readValue? (fuel+1) 0 ('\x7b' :: s) = none := by
  have hs : skipSpace ('\x7b' :: s) = '\x7b' :: s := rfl
  rw [readValue?,hs]
  rfl

theorem readValue?_list_eq_none {c : Char} (h : skipSpace s = c :: t) (hc : c ≠ ']')
    (hn : ∀ v r, readValue? fuel depth (c :: t) = some (v,r) → readItems? fuel depth r = none) :
    readValue? (fuel+1) (depth+1) ('[' :: s) = none := by
  have hs : skipSpace ('[' :: s) = '[' :: s := rfl
  rw [readValue?,hs]
  cases hv : readValue? fuel depth (c :: t) with
  | none => simp [h,hc,hv]
  | some p => simp [h,hc,hv,hn p.1 p.2 hv]

theorem readValue?_object_eq_none (h : skipSpace s = '"' :: t) (hk : readKey? t = some (k,r))
    (hn : ∀ v u, readValue? fuel depth r = some (v,u) → readFields? fuel depth u = none) :
    readValue? (fuel+1) (depth+1) ('\x7b' :: s) = none := by
  have hs : skipSpace ('\x7b' :: s) = '\x7b' :: s := rfl
  rw [readValue?,hs]
  cases hv : readValue? fuel depth r with
  | none => simp [h,hk,hv]
  | some p => simp [h,hk,hv,hn p.1 p.2 hv]

theorem readItems?_eq_none (h : skipSpace s = ',' :: t)
    (hn : ∀ v r, readValue? fuel depth t = some (v,r) → readItems? fuel depth r = none) :
    readItems? (fuel+1) depth s = none := by
  cases hv : readValue? fuel depth t with
  | none => simp [readItems?,h,hv]
  | some p => simp [readItems?,h,hv,hn p.1 p.2 hv]

theorem readFields?_eq_none {u : Text} (h : skipSpace s = ',' :: t) (hq : skipSpace t = '"' :: u)
    (hk : readKey? u = some (k,r))
    (hn : ∀ v w, readValue? fuel depth r = some (v,w) → readFields? fuel depth w = none) :
    readFields? (fuel+1) depth s = none := by
  cases hv : readValue? fuel depth r with
  | none => simp [readFields?,h,hq,hk,hv]
  | some p => simp [readFields?,h,hq,hk,hv,hn p.1 p.2 hv]

end

/-- With so many steps, shorter texts that nest too deep are refused. -/
structure RefusesDeep (fuel : Nat) : Prop where
  value : ∀ {v : Value} {t r : Text} {d : Nat}, Written v t → d < v.depth → t.length < fuel →
    readValue? fuel d (t ++ r) = none
  items : ∀ {vs : List Value} {u r : Text} {d : Nat}, WrittenItems vs u → d < itemsDepth vs →
    u.length < fuel → readItems? fuel d (u ++ r) = none
  fields : ∀ {fs : List (Text × Value)} {u r : Text} {d : Nat}, WrittenFields fs u →
    d < fieldsDepth fs → u.length < fuel → readFields? fuel d (u ++ r) = none

theorem refusesDeep_zero : RefusesDeep 0 where
  value := fun _ _ h => absurd h (Nat.not_lt_zero _)
  items := fun _ _ h => absurd h (Nat.not_lt_zero _)
  fields := fun _ _ h => absurd h (Nat.not_lt_zero _)

section

variable {fuel : Nat} (ih : RefusesDeep fuel)
include ih

/-- Of a value and what stands behind it one nests too deep. If the value does, nothing is read for
it; else it is read as written, and what stands behind it decides. -/
theorem RefusesDeep.behind {P : Text → Prop} {v : Value} {g t r : Text} {d : Nat} (hg : Spaces g)
    (hv : Written v t) (hl : t.length < fuel) (hr : NumberText.EndsNumber r)
    (hP : v.depth ≤ d → P r) : ∀ w u, readValue? fuel d (g ++ (t ++ r)) = some (w,u) → P u := by
  intro w u hw
  rw [readValue?_append hg] at hw
  rcases Nat.lt_or_ge d v.depth with hd | hd
  · rw [ih.value hv hd hl] at hw
    cases hw
  · rw [(readsBack fuel).value hv hd hl hr] at hw
    obtain ⟨-,rfl⟩ := Prod.mk.inj (Option.some.inj hw)
    exact hP hd

theorem RefusesDeep.value_succ {v : Value} {t r : Text} {depth : Nat} (h : Written v t)
    (hd : depth < v.depth) (hl : t.length < fuel+1) :
    readValue? (fuel+1) depth (t ++ r) = none := by
  cases h with
  | null | yes | no | int | string => simp [Value.depth] at hd
  | emptyList hg =>
    obtain rfl : depth = 0 := by simpa [Value.depth,itemsDepth] using hd
    exact readValue?_list_zero _
  | @list v vs g t u hg hv hvs =>
    cases depth with
    | zero => exact readValue?_list_zero _
    | succ depth =>
      obtain ⟨c,s,rfl,hc,hb⟩ := hv.exists_cons
      simp only [Value.depth,itemsDepth,List.length_cons,List.length_append] at hd hl
      have hs := skipSpace_append_cons hg hc (s ++ (u ++ r))
      have hvs' : v.depth ≤ depth → readItems? fuel depth (u ++ r) = none := fun h =>
        ih.items hvs (by omega) (by omega)
      have hn := ih.behind (P := fun w => readItems? fuel depth w = none) spaces_nil hv
        (by simp only [List.length_cons]; omega) (hvs.endsNumber r) hvs'
      simpa using readValue?_list_eq_none hs hb hn
  | emptyObject hg =>
    obtain rfl : depth = 0 := by simpa [Value.depth,fieldsDepth] using hd
    exact readValue?_object_zero _
  | @object k v fs g g₁ g₂ t u _ hg h₁ h₂ hv hfs =>
    cases depth with
    | zero => exact readValue?_object_zero _
    | succ depth =>
      simp only [Value.depth,fieldsDepth,List.length_cons,List.length_append,fieldText] at hd hl
      have hs := skipSpace_append_cons hg (c := '"') rfl
        (k.flatMap QuotedText.escape ++ '"' :: (g₁ ++ ':' :: (g₂ ++ (t ++ (u ++ r)))))
      have hfs' : v.depth ≤ depth → readFields? fuel depth (u ++ r) = none := fun h =>
        ih.fields hfs (by omega) (by omega)
      have hn := ih.behind (P := fun w => readFields? fuel depth w = none) h₂ hv (by omega)
        (hfs.endsNumber r) hfs'
      simpa [fieldText_append] using readValue?_object_eq_none hs (readKey?_write h₁ k _) hn

theorem RefusesDeep.items_succ {vs : List Value} {u r : Text} {depth : Nat} (h : WrittenItems vs u)
    (hd : depth < itemsDepth vs) (hl : u.length < fuel+1) :
    readItems? (fuel+1) depth (u ++ r) = none := by
  cases h with
  | done => simp [itemsDepth] at hd
  | @more v vs g g' t u hg hg' hv hvs =>
    simp only [itemsDepth,List.length_cons,List.length_append] at hd hl
    have hs := skipSpace_append_cons hg (c := ',') rfl (g' ++ (t ++ (u ++ r)))
    have hvs' : v.depth ≤ depth → readItems? fuel depth (u ++ r) = none := fun h =>
      ih.items hvs (by omega) (by omega)
    have hn := ih.behind (P := fun w => readItems? fuel depth w = none) hg' hv (by omega)
      (hvs.endsNumber r) hvs'
    simpa using readItems?_eq_none hs hn

theorem RefusesDeep.fields_succ {fs : List (Text × Value)} {u r : Text} {depth : Nat}
    (h : WrittenFields fs u) (hd : depth < fieldsDepth fs) (hl : u.length < fuel+1) :
    readFields? (fuel+1) depth (u ++ r) = none := by
  cases h with
  | done => simp [fieldsDepth] at hd
  | @more k v fs g g' g₁ g₂ t u hg hg' h₁ h₂ hv hfs =>
    simp only [fieldsDepth,List.length_cons,List.length_append,fieldText] at hd hl
    have hq := skipSpace_append_cons hg' (c := '"') rfl
      (k.flatMap QuotedText.escape ++ '"' :: (g₁ ++ ':' :: (g₂ ++ (t ++ (u ++ r)))))
    have hs := skipSpace_append_cons hg (c := ',') rfl (g' ++ '"' ::
      (k.flatMap QuotedText.escape ++ '"' :: (g₁ ++ ':' :: (g₂ ++ (t ++ (u ++ r))))))
    have hfs' : v.depth ≤ depth → readFields? fuel depth (u ++ r) = none := fun h =>
      ih.fields hfs (by omega) (by omega)
    have hn := ih.behind (P := fun w => readFields? fuel depth w = none) h₂ hv (by omega)
      (hfs.endsNumber r) hfs'
    simpa [fieldText_append] using readFields?_eq_none hs hq (readKey?_write h₁ k _) hn

end

theorem refusesDeep (fuel : Nat) : RefusesDeep fuel := by
  induction fuel with
  | zero => exact refusesDeep_zero
  | succ fuel ih => exact ⟨ih.value_succ,ih.items_succ,ih.fields_succ⟩

end ValueReader

namespace Value

open ValueReader

theorem decode?_of_deep {v : Value} {t : Text} {depth : Nat} (h : Written v t)
    (hd : depth < v.depth) (s : Text) : decode? depth (t ++ s) = none := by
  have hl : t.length < (t ++ s).length+1 := by
    rw [List.length_append]
    omega
  rw [decode?,(refusesDeep _).value h hd hl]

theorem ofText_of_decode?_eq_none {raw : Text} (hn : raw ≠ [])
    (h : decode? depthLimit raw = none) : ofText raw = string raw := by
  have hne : (raw == "null".toList) = false := by
    refine beq_false_of_ne ?_
    rintro rfl
    cases h
  have hem : raw.isEmpty = false := by simp [hn]
  rw [ofText,hem,hne,h]
  rfl

/-- Reading undoes compact writing of the values that nest at most 127 lists and objects, with the
fields of objects in their order. The text of a value that nests deeper stands for itself. -/
theorem ofText_compact_by_depth {v : Value} (h : v.exact = true) :
    (v.depth ≤ 127 → ofText v.compact = v) ∧
      (128 ≤ v.depth → ofText v.compact = string v.compact) := by
  refine ⟨ofText_compact h,fun hd => ?_⟩
  obtain ⟨c,s,hc,-⟩ := (written_compact h).exists_cons
  have hdeep : depthLimit < v.depth := hd
  have hn := decode?_of_deep (written_compact h) hdeep []
  rw [List.append_nil] at hn
  exact ofText_of_decode?_eq_none (by rw [hc]; simp) hn

def nested (n : Nat) (v : Value) : Value :=
  match n with
  | 0 => v
  | n+1 => list [object [("k\n".toList,nested n v),([],null)]]

theorem depth_nested (n : Nat) (v : Value) : (nested n v).depth = 2*n+v.depth := by
  induction n with
  | zero => simp [nested]
  | succ n ih =>
    simp only [nested,depth,itemsDepth,fieldsDepth,ih]
    omega

theorem exact_nested (n : Nat) (v : Value) : (nested n v).exact = v.exact := by
  induction n with
  | zero => rfl
  | succ n ih => simp [nested,exact,itemsExact,fieldsExact,KeyedList.keys,ih]

theorem ofText_compact_nested :
    let v := nested 63 (list [int (-1),string ['"']])
    let w := nested 63 (list [object [([],string ['"'])]])
    v.exact = true ∧ v.depth = 127 ∧ ofText v.compact = v ∧
      w.exact = true ∧ w.depth = 128 ∧ ofText w.compact = string w.compact := by
  intro v w
  have hv : v.exact = true := (exact_nested 63 _).trans (by decide)
  have hw : w.exact = true := (exact_nested 63 _).trans (by decide)
  have hdv : v.depth = 127 := depth_nested 63 _
  have hdw : w.depth = 128 := depth_nested 63 _
  exact ⟨hv,hdv,(ofText_compact_by_depth hv).1 (by omega),hw,hdw,
    (ofText_compact_by_depth hw).2 (by omega)⟩

end Value
end DocTags
