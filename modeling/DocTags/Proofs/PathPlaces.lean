import DocTags.FileSystem
import Mathlib.Data.List.Basic

/-! Where paths lead. The path of a folder, joined with a name in it, leads where the name leads; and paths
with the same components lead to the same place. -/
namespace DocTags

namespace Path

/-- Joining puts the name behind the pieces of the path, in the place of an empty last one. -/
theorem exists_pieces_join {d n : Bytes} (hd : d ≠ []) (hn : IsFileName n) :
    ∃ ps, (pieces d = ps ∨ pieces d = ps ++ [[]]) ∧ pieces (join d n) = ps ++ [n] := by
  have hp : pieces n = [n] := List.splitOn_eq_singleton hn.notMem
  have hh : n.head? ≠ some slash := fun h => hn.notMem (List.mem_of_head? h)
  have ha (s t : Bytes) : pieces (s ++ slash :: t) = pieces s ++ pieces t :=
    List.splitOn_append_cons_self s t
  obtain ⟨d,c,rfl⟩ := (List.eq_nil_or_concat' d).resolve_left hd
  by_cases hc : c = slash
  · subst c
    refine ⟨pieces d,Or.inr (ha d []),?_⟩
    have hj : join (d ++ [slash]) n = d ++ slash :: n := by simp [join,hh]
    rw [hj,ha,hp]
  · refine ⟨pieces (d ++ [c]),Or.inl rfl,?_⟩
    have hj : join (d ++ [c]) n = (d ++ [c]) ++ slash :: n := by simp [join,hh,hc]
    rw [hj,ha,hp]

theorem head?_join {d n : Bytes} (hd : d ≠ []) (hn : IsFileName n) :
    (join d n).head? = d.head? := by
  have hh : n.head? ≠ some slash := fun h => hn.notMem (List.mem_of_head? h)
  cases d with
  | nil => exact absurd rfl hd
  | cons c r =>
    rw [join,if_neg hh]
    split <;> rfl

namespace Component

def piece : Component → Bytes
  | root => []
  | here => Path.here
  | parent => Path.parent
  | name n => n

theorem map_piece_ofPiece? (p : Bytes) : (ofPiece? p).map piece = Option.guard isStep p := by
  unfold ofPiece? Option.guard
  cases hs : isStep p with
  | false => rfl
  | true =>
    by_cases hp : p = Path.parent
    · simp [hp,piece]
    · simp [hp,piece]

end Component

theorem filter_isStep_components (p : Bytes) :
    ((components p).map Component.piece).filter isStep = (pieces p).filter isStep := by
  have hr : ((pieces p).filterMap Component.ofPiece?).map Component.piece =
      (pieces p).filter isStep := by
    rw [List.map_filterMap,funext Component.map_piece_ofPiece?,List.filterMap_eq_filter]
  have hs (c : Component) (hc : isStep c.piece = false) :
      ((c :: (pieces p).filterMap Component.ofPiece?).map Component.piece).filter isStep =
        (pieces p).filter isStep := by
    rw [List.map_cons,List.filter_cons_of_neg (by simp [hc]),hr,List.filter_filter]
    simp
  simp only [components]
  split
  · exact hs .root rfl
  · split
    · exact hs .here rfl
    · rw [hr,List.filter_filter]
      simp

theorem head?_components (p : Bytes) :
    (components p).head? = some .root ↔ p.head? = some slash := by
  simp only [components]
  split
  · simpa
  · split
    · simpa
    · have hr : (.root : Component) ∉ (pieces p).filterMap Component.ofPiece? := by
        intro hm
        obtain ⟨n,-,hn⟩ := List.mem_filterMap.mp hm
        unfold Component.ofPiece? at hn
        split at hn
        · cases hn
        · split at hn <;> cases hn
      refine iff_of_false ?_ ‹_›
      exact fun h => hr (List.mem_of_head? h)

end Path

namespace FileSystem

variable {fs : FileSystem}

theorem place?_eq_some_iff {path : Bytes} {t : Place} : fs.place? path = some t ↔
    path ≠ [] ∧ (Path.pieces path).foldlM fs.step (fs.start path) = some t := by
  unfold place?
  by_cases hp : path = [] <;> simp [hp]

theorem eq_of_step {s t : Place} {p : Bytes} (hp : Path.isStep p = false)
    (h : fs.step s p = some t) : s = t := by
  unfold step at h
  split at h
  · simpa [hp] using h
  · cases h

theorem step_child {s t : Place} {refusal : Option Text} {children : List (Bytes × Place)} {n : Bytes}
    (hs : fs.node? s = some (.folder refusal children)) (hc : (n,t) ∈ children) :
    Path.IsFileName n ∧ fs.step s n = some t := by
  obtain ⟨hd,hn⟩ := fs.wellNamed.of_lookup hs
  have hname := hn n (List.mem_map_of_mem hc)
  have hp : Path.isStep n = true := by simp [Path.isStep,hname.ne_nil,hname.ne_here]
  refine ⟨hname,?_⟩
  simp [step,hs,hp,hname.ne_parent,(KeyedList.lookup_eq_some_iff hd).mpr hc]

/-- The path of a folder, joined with a name in it, leads where the name leads. -/
theorem place?_join {d n : Bytes} {t : Place} {refusal : Option Text}
    {children : List (Bytes × Place)} (hd : fs.find? d = some (.folder refusal children))
    (hc : (n,t) ∈ children) : fs.place? (Path.join d n) = some t := by
  obtain ⟨s,hs,hnode⟩ := Option.bind_eq_some_iff.mp hd
  obtain ⟨hne,hf⟩ := place?_eq_some_iff.mp hs
  obtain ⟨hn,hstep⟩ := step_child hnode hc
  obtain ⟨ps,hp,hj⟩ := Path.exists_pieces_join hne hn
  have hh := Path.head?_join hne hn
  have hjn : Path.join d n ≠ [] := by
    intro he
    rw [he] at hh
    exact hne (List.head?_eq_none_iff.mp hh.symm)
  -- an empty piece at the end stays in the folder
  have hs' : ps.foldlM fs.step (fs.start d) = some s := by
    rcases hp with hp | hp
    · rwa [hp] at hf
    · rw [hp,List.foldlM_append] at hf
      obtain ⟨s',h₁,h₂⟩ := Option.bind_eq_some_iff.mp hf
      rw [List.foldlM_cons] at h₂
      obtain ⟨t',h₂,h₃⟩ := Option.bind_eq_some_iff.mp h₂
      rw [h₁,eq_of_step rfl h₂]
      exact h₃
  have hst : fs.start (Path.join d n) = fs.start d := by rw [start,hh,start]
  refine place?_eq_some_iff.mpr ⟨hjn,?_⟩
  rw [hj,List.foldlM_append,hst,hs']
  simp [hstep]

theorem find?_join {d n : Bytes} {t : Place} {refusal : Option Text}
    {children : List (Bytes × Place)} (hd : fs.find? d = some (.folder refusal children))
    (hc : (n,t) ∈ children) : fs.find? (Path.join d n) = fs.node? t := by
  rw [find?,place?_join hd hc,Option.bind_some]

theorem foldlM_filter_isStep {s t : Place} {ps : List Bytes} (h : ps.foldlM fs.step s = some t) :
    (ps.filter Path.isStep).foldlM fs.step s = some t := by
  induction ps generalizing s with
  | nil => exact h
  | cons p ps ih =>
    rw [List.foldlM_cons] at h
    obtain ⟨s',h₁,h⟩ := Option.bind_eq_some_iff.mp h
    cases hp : Path.isStep p with
    | false =>
      rw [List.filter_cons_of_neg (by simp [hp]),eq_of_step hp h₁]
      exact ih h
    | true =>
      rw [List.filter_cons_of_pos hp,List.foldlM_cons,h₁]
      exact ih h

/-- Paths with the same components lead to the same place, if they lead anywhere. -/
theorem place?_eq_of_components {s t : Place} {p q : Bytes}
    (h : Path.components p = Path.components q) (hp : fs.place? p = some s)
    (hq : fs.place? q = some t) : s = t := by
  have h₁ := foldlM_filter_isStep (place?_eq_some_iff.mp hp).2
  have h₂ := foldlM_filter_isStep (place?_eq_some_iff.mp hq).2
  have hs : (Path.pieces p).filter Path.isStep = (Path.pieces q).filter Path.isStep := by
    rw [← Path.filter_isStep_components,h,Path.filter_isStep_components]
  have hst : fs.start p = fs.start q := by simp only [start,← Path.head?_components,h]
  rw [hs,hst,h₂] at h₁
  exact (Option.some.inj h₁).symm

theorem find?_eq_of_components {u v : Node} {p q : Bytes}
    (h : Path.components p = Path.components q) (hp : fs.find? p = some u)
    (hq : fs.find? q = some v) : u = v := by
  obtain ⟨s,hs,hu⟩ := Option.bind_eq_some_iff.mp hp
  obtain ⟨t,ht,hv⟩ := Option.bind_eq_some_iff.mp hq
  obtain rfl := place?_eq_of_components h hs ht
  exact Option.some.inj (hu.symm.trans hv)

end FileSystem
end DocTags
