/-! Lists of pairs as tables: a key keeps the place where it first came in. -/
namespace DocTags
namespace KeyedList

variable {κ ν : Type} [BEq κ]

def keys (l : List (κ × ν)) : List κ := l.map Prod.fst

/-- Sets the value of a key: a known key keeps its place, a new one goes to the end. -/
def put (k : κ) (v : ν) : List (κ × ν) → List (κ × ν)
  | [] => [(k,v)]
  | e :: l => if k == e.1 then (k,v) :: l else e :: put k v l

def ofPairs (ps : List (κ × ν)) : List (κ × ν) := ps.foldl (fun l p => put p.1 p.2 l) []

variable [LawfulBEq κ]

omit [LawfulBEq κ] in
theorem lookup_cons_eq (k : κ) (e : κ × ν) (l : List (κ × ν)) :
    (e :: l).lookup k = if k == e.1 then some e.2 else l.lookup k := by
  obtain ⟨a,v⟩ := e
  rw [List.lookup_cons]
  cases k == a <;> rfl

theorem lookup_eq_none_iff {k : κ} {l : List (κ × ν)} : l.lookup k = none ↔ k ∉ keys l := by
  rw [List.lookup_eq_none_iff]
  constructor
  · intro h hk
    obtain ⟨e,he,rfl⟩ := List.mem_map.mp hk
    simpa using h e he
  · intro h e he
    have hne : k ≠ e.1 := fun hk => h (List.mem_map.mpr ⟨e,he,hk.symm⟩)
    simpa using hne

theorem lookup_eq_some_iff {k : κ} {v : ν} {l : List (κ × ν)} (h : (keys l).Nodup) :
    l.lookup k = some v ↔ (k,v) ∈ l := by
  induction l with
  | nil => simp
  | cons e l ih =>
    obtain ⟨he,hl⟩ := List.nodup_cons.mp h
    rw [lookup_cons_eq,List.mem_cons,← ih hl]
    by_cases hk : k = e.1
    · have hn : l.lookup k = none := lookup_eq_none_iff.mpr (hk ▸ he)
      simp [hk,Prod.ext_iff,hk ▸ hn,eq_comm]
    · simp [hk,Prod.ext_iff]

theorem eq_map_keys {l : List (κ × ν)} (d : ν) (h : (keys l).Nodup) :
    l = (keys l).map fun k => (k,(l.lookup k).getD d) := by
  have hm : l.map (fun e => (e.1,(l.lookup e.1).getD d)) = l.map id := by
    refine List.map_congr_left fun e he => ?_
    rw [(lookup_eq_some_iff h).mpr he]
    rfl
  rw [keys,List.map_map]
  exact (hm.trans (List.map_id l)).symm

omit [LawfulBEq κ] in
theorem lookup_map_snd {μ : Type} (f : ν → μ) (k : κ) (l : List (κ × ν)) :
    (l.map fun e => (e.1,f e.2)).lookup k = (l.lookup k).map f := by
  induction l with
  | nil => rfl
  | cons e l ih =>
    rw [List.map_cons,lookup_cons_eq,lookup_cons_eq,ih]
    split <;> rfl

theorem lookup_put (k k' : κ) (v : ν) (l : List (κ × ν)) :
    (put k v l).lookup k' = if k' == k then some v else l.lookup k' := by
  induction l with
  | nil => rw [put,lookup_cons_eq]
  | cons e l ih =>
    rw [put]
    split
    · rename_i he
      obtain rfl := eq_of_beq he
      rw [lookup_cons_eq,lookup_cons_eq]
      split <;> rfl
    · rename_i he
      rw [lookup_cons_eq,lookup_cons_eq,ih]
      by_cases h : k' == e.1
      · have hk : (k' == k) = false := beq_false_of_ne fun hk =>
          he (beq_iff_eq.mpr (hk.symm.trans (eq_of_beq h)))
        simp [h,hk]
      · simp [h]

theorem keys_put (k : κ) (v : ν) (l : List (κ × ν)) :
    keys (put k v l) = if k ∈ keys l then keys l else keys l ++ [k] := by
  induction l with
  | nil => simp [put,keys]
  | cons e l ih =>
    by_cases he : k = e.1
    · simp [put,keys,he]
    · simp only [keys] at ih
      simp only [put,keys,beq_false_of_ne he,Bool.false_eq_true,if_false,List.map_cons,ih,
        List.mem_cons,he,false_or]
      split <;> simp_all

omit [LawfulBEq κ] in
theorem mem_of_mem_put {k : κ} {v : ν} {l : List (κ × ν)} {e : κ × ν} (h : e ∈ put k v l) :
    e = (k,v) ∨ e ∈ l := by
  induction l with
  | nil => exact Or.inl (List.mem_singleton.mp h)
  | cons d l ih =>
    rw [put] at h
    split at h
    · exact (List.mem_cons.mp h).imp_right (List.mem_cons_of_mem d)
    · rcases List.mem_cons.mp h with rfl | h
      · exact Or.inr (List.mem_cons_self ..)
      · exact (ih h).imp_right (List.mem_cons_of_mem d)

theorem nodup_keys_put {k : κ} {v : ν} {l : List (κ × ν)} (h : (keys l).Nodup) :
    (keys (put k v l)).Nodup := by
  rw [keys_put]
  split
  · exact h
  · rename_i hk
    refine List.nodup_append.mpr ⟨h,by simp,?_⟩
    intro a ha b hb e
    exact hk (List.mem_singleton.mp hb ▸ e ▸ ha)

theorem eraseDups_concat (k : κ) (ks : List κ) :
    (ks ++ [k]).eraseDups = if k ∈ ks then ks.eraseDups else ks.eraseDups ++ [k] := by
  rw [List.eraseDups_append]
  by_cases h : k ∈ ks
  · simp [h,List.removeAll]
  · simp [h,List.removeAll,List.eraseDups_cons]

/-- Where every step brings in a key, the keys stand in order of their first step. -/
theorem keys_foldl {α : Type} {g : List (κ × ν) → α → List (κ × ν)} {key : α → κ}
    (hg : ∀ l a, keys (g l a) = if key a ∈ keys l then keys l else keys l ++ [key a])
    (as : List α) {l : List (κ × ν)} {ks : List κ} (hl : keys l = ks.eraseDups) :
    keys (as.foldl g l) = (ks ++ as.map key).eraseDups := by
  induction as generalizing l ks with
  | nil => simpa using hl
  | cons a as ih =>
    have ha : keys (g l a) = (ks ++ [key a]).eraseDups := by
      rw [hg,hl,eraseDups_concat]
      simp only [List.mem_eraseDups]
    rw [List.foldl_cons,ih ha,List.map_cons,List.append_assoc]
    rfl

theorem keys_ofPairs (ps : List (κ × ν)) : keys (ofPairs ps) = (keys ps).eraseDups := by
  have h : keys ([] : List (κ × ν)) = ([] : List κ).eraseDups := rfl
  exact keys_foldl (fun l p => keys_put p.1 p.2 l) ps h

theorem nodup_keys_ofPairs (ps : List (κ × ν)) : (keys (ofPairs ps)).Nodup := by
  have h (l : List (κ × ν)) (hl : (keys l).Nodup) :
      (keys (ps.foldl (fun l p => put p.1 p.2 l) l)).Nodup := by
    induction ps generalizing l with
    | nil => exact hl
    | cons p ps ih => exact ih _ (nodup_keys_put hl)
  exact h [] List.nodup_nil

theorem lookup_foldl_put_of_notMem {k : κ} {ps : List (κ × ν)} (h : k ∉ keys ps)
    (l : List (κ × ν)) : (ps.foldl (fun l p => put p.1 p.2 l) l).lookup k = l.lookup k := by
  induction ps generalizing l with
  | nil => rfl
  | cons p ps ih =>
    simp only [keys,List.map_cons,List.mem_cons,not_or] at h
    have hk : (k == p.1) = false := beq_false_of_ne h.1
    rw [List.foldl_cons,ih h.2,lookup_put,hk]
    rfl

theorem lookup_foldl_put_of_mem {k : κ} {ps : List (κ × ν)} (h : k ∈ keys ps)
    (l m : List (κ × ν)) : (ps.foldl (fun l p => put p.1 p.2 l) l).lookup k =
      (ps.foldl (fun l p => put p.1 p.2 l) m).lookup k := by
  induction ps generalizing l m with
  | nil => cases h
  | cons p ps ih =>
    by_cases hk : k ∈ keys ps
    · exact ih hk _ _
    · obtain rfl : k = p.1 := (List.mem_cons.mp h).resolve_right hk
      rw [List.foldl_cons,List.foldl_cons,lookup_foldl_put_of_notMem hk,
        lookup_foldl_put_of_notMem hk,lookup_put,lookup_put]
      simp

theorem lookup_ofPairs_of_notMem {k : κ} {ps : List (κ × ν)} (h : k ∉ keys ps) :
    (ofPairs ps).lookup k = none :=
  lookup_foldl_put_of_notMem h []

/-- The last pair of a key sets its value. -/
theorem lookup_ofPairs_append {k : κ} {qs : List (κ × ν)} (h : k ∉ keys qs) (ps : List (κ × ν))
    (v : ν) : (ofPairs (ps ++ (k,v) :: qs)).lookup k = some v := by
  rw [ofPairs,List.foldl_append,List.foldl_cons,lookup_foldl_put_of_notMem h,lookup_put]
  simp

theorem put_append_of_notMem {k : κ} {v : ν} {l : List (κ × ν)} (h : k ∉ keys l)
    (m : List (κ × ν)) : put k v (l ++ m) = l ++ put k v m := by
  induction l with
  | nil => rfl
  | cons e l ih =>
    simp only [keys,List.map_cons,List.mem_cons,not_or] at h
    simp [put,h.1,ih h.2]

theorem put_of_notMem {k : κ} {v : ν} {l : List (κ × ν)} (h : k ∉ keys l) :
    put k v l = l ++ [(k,v)] := by
  simpa [put] using put_append_of_notMem h []

omit [BEq κ] [LawfulBEq κ] in
theorem notMem_keys_of_nodup_append {p : κ × ν} {l ps : List (κ × ν)}
    (h : (keys (l ++ p :: ps)).Nodup) : p.1 ∉ keys l := by
  rw [keys,List.map_append,List.map_cons,List.nodup_append] at h
  exact fun hm => h.2.2 p.1 hm p.1 (by simp) rfl

theorem foldl_put_of_nodup {ps l : List (κ × ν)} (h : (keys (l ++ ps)).Nodup) :
    ps.foldl (fun l p => put p.1 p.2 l) l = l ++ ps := by
  induction ps generalizing l with
  | nil => simp
  | cons p ps ih =>
    have hp := notMem_keys_of_nodup_append h
    rw [List.foldl_cons,put_of_notMem hp,ih (by simpa using h)]
    simp

omit [LawfulBEq κ] in
theorem put_map_snd {μ : Type} (f : ν → μ) (k : κ) (v : ν) (l : List (κ × ν)) :
    put k (f v) (l.map fun e => (e.1,f e.2)) = (put k v l).map fun e => (e.1,f e.2) := by
  induction l with
  | nil => rfl
  | cons e l ih => by_cases h : k == e.1 <;> simp [put,h,ih]

omit [LawfulBEq κ] in
theorem ofPairs_map_snd {μ : Type} (f : ν → μ) (ps : List (κ × ν)) :
    ofPairs (ps.map fun e => (e.1,f e.2)) = (ofPairs ps).map fun e => (e.1,f e.2) := by
  have h (l : List (κ × ν)) : (ps.map fun e => (e.1,f e.2)).foldl (fun l p => put p.1 p.2 l)
      (l.map fun e => (e.1,f e.2)) =
        (ps.foldl (fun l p => put p.1 p.2 l) l).map fun e => (e.1,f e.2) := by
    induction ps generalizing l with
    | nil => rfl
    | cons p ps ih => rw [List.map_cons,List.foldl_cons,List.foldl_cons,← ih,← put_map_snd]
  exact h []

theorem ofPairs_of_nodup {ps : List (κ × ν)} (h : (keys ps).Nodup) : ofPairs ps = ps := by
  have hn := foldl_put_of_nodup (show (keys ([] ++ ps)).Nodup from h)
  simpa [ofPairs] using hn

end KeyedList
end DocTags
