import DocTags.Proofs.DeclarationLine
import Mathlib.Data.List.Nodup

/-! The three searches of a text for landmarks, merged by place, find what one pass over its lines
finds: no line holds two landmarks, and the lines stand in order. -/
namespace DocTags

namespace SourceIndex

open SourcePattern LineScan

def lineLandmarks (ls : List (Nat × Text)) : List (Nat × Landmark) :=
  ls.filterMap fun e => (landmark? e.2).map fun m => (e.1,m)

/-- Where at most one of two functions finds something, searching with one after the other finds
what a search with both finds, up to order. -/
theorem filterMap_append_perm {α β : Type} {f g : α → Option β} {l : List α}
    (h : ∀ a ∈ l, f a = none ∨ g a = none) :
    (l.filterMap f ++ l.filterMap g).Perm (l.filterMap fun a => (f a).or (g a)) := by
  induction l with
  | nil => exact List.Perm.refl _
  | cons a l ih =>
    have ha := h a (by simp)
    have hh := ih fun b hb => h b (by simp [hb])
    cases hf : f a with
    | none =>
      cases hg : g a with
      | none => simpa [hf,hg] using hh
      | some b =>
        simp only [List.filterMap_cons,hf,hg,Option.none_or]
        exact List.perm_middle.trans (hh.cons b)
    | some b =>
      have hg : g a = none := by simpa [hf] using ha
      simp only [List.filterMap_cons,hf,hg,Option.some_or,List.cons_append]
      exact hh.cons b

theorem found_eq_filterMap {α : Type} {p : Pattern α} (hp : LinePattern p) (m : α → Landmark)
    (s : Text) : (findAll p s).map (fun x => (x.start,m x.found)) =
      (Text.placed 0 s.lines).filterMap fun e => (p true e.2).map fun x => (e.1,m x.1) := by
  have hc := congrArg (List.map fun e => (e.1,m e.2)) (captures_findAll hp s)
  rw [captures,List.map_map,lineCaptures,List.map_filterMap] at hc
  refine hc.trans ?_
  congr 1
  funext e
  rw [Option.map_map]
  rfl

theorem landmark?_eq_or {line : Text} (h : '\n' ∉ line) :
    landmark? line =
      (((classDeclaration true line).map fun x => Landmark.classDeclaration x.1).or
        ((functionDeclaration true line).map fun x => Landmark.functionDeclaration x.1)).or
          ((classEnd true line).map fun _ => Landmark.classEnd) := by
  have hc : (classDeclaration true line).map (fun x => Landmark.classDeclaration x.1) =
      (className? line).map Landmark.classDeclaration := by
    rw [className?_eq h,Option.map_map]
    rfl
  have hf : (functionDeclaration true line).map (fun x => Landmark.functionDeclaration x.1) =
      (functionName? line).map Landmark.functionDeclaration := by
    rw [functionName?_eq h,Option.map_map]
    rfl
  have he : (classEnd true line).map (fun _ => Landmark.classEnd) =
      if line.head? = some '\x7d' then some Landmark.classEnd else none := by
    cases line with
    | nil => rfl
    | cons c line => by_cases hb : c = '\x7d' <;> simp [classEnd,hb]
  rw [hc,hf,he,landmark?]
  cases className? line with
  | some c => rfl
  | none => cases functionName? line <;> rfl

theorem patterns_disjoint {line : Text} (h : '\n' ∉ line) :
    (classDeclaration true line = none ∨ functionDeclaration true line = none) ∧
      (classEnd true line = none ∨
        classDeclaration true line = none ∧ functionDeclaration true line = none) := by
  have hc : classDeclaration true line = none ↔ className? line = none := by
    rw [className?_eq h,Option.map_eq_none_iff]
  have hf : functionDeclaration true line = none ↔ functionName? line = none := by
    rw [functionName?_eq h,Option.map_eq_none_iff]
  rw [hc,hf]
  refine ⟨className?_or_functionName? line,?_⟩
  by_cases hb : line.head? = some '\x7d'
  · exact Or.inr (names_of_brace hb)
  · refine Or.inl ?_
    cases line with
    | nil => rfl
    | cons c line =>
      have hne : c ≠ '\x7d' := fun he => hb (by rw [he]; rfl)
      simp [classEnd,hne]

theorem landmarks_perm (s : Text) : (landmarks s).Perm (lineLandmarks (Text.placed 0 s.lines)) := by
  have hn : ∀ e ∈ Text.placed 0 s.lines, '\n' ∉ e.2 := fun e he =>
    Text.notMem_of_mem_placed he
  refine (List.mergeSort_perm _ _).trans ?_
  rw [found_eq_filterMap linePattern_classDeclaration,
    found_eq_filterMap linePattern_functionDeclaration,
    found_eq_filterMap linePattern_classEnd fun _ => Landmark.classEnd]
  have hcf := filterMap_append_perm (l := Text.placed 0 s.lines)
    (f := fun e => (classDeclaration true e.2).map fun x => (e.1,Landmark.classDeclaration x.1))
    (g := fun e =>
      (functionDeclaration true e.2).map fun x => (e.1,Landmark.functionDeclaration x.1))
    (fun e he => by simpa using (patterns_disjoint (hn e he)).1)
  refine (hcf.append_right _).trans ((filterMap_append_perm ?_).trans (List.Perm.of_eq ?_))
  · intro e he
    rcases (patterns_disjoint (hn e he)).2 with h | ⟨hc,hf⟩
    · exact Or.inr (by rw [h]; rfl)
    · exact Or.inl (by rw [hc,hf]; rfl)
  · refine List.filterMap_congr fun e he => ?_
    rw [landmark?_eq_or (hn e he)]
    cases classDeclaration true e.2 with
    | some x => rfl
    | none =>
      cases functionDeclaration true e.2 with
      | some x => rfl
      | none => cases classEnd true e.2 <;> rfl

theorem pairwise_lineLandmarks (i : Nat) (ls : List Text) :
    (lineLandmarks (Text.placed i ls)).Pairwise fun a b => a.1 < b.1 := by
  refine List.pairwise_filterMap.mpr ((Text.pairwise_placed i ls).imp ?_)
  intro a b hab x hx y hy
  obtain ⟨m,-,rfl⟩ := Option.map_eq_some_iff.mp hx
  obtain ⟨n,-,rfl⟩ := Option.map_eq_some_iff.mp hy
  exact hab

theorem sorted_landmarks (s : Text) : (landmarks s).Pairwise fun a b => a.1 ≤ b.1 := by
  have hs : (landmarks s).Pairwise fun a b => decide (a.1 ≤ b.1) = true := by
    refine List.pairwise_mergeSort ?_ ?_ _
    · intro a b c hab hbc
      exact decide_eq_true (Nat.le_trans (of_decide_eq_true hab) (of_decide_eq_true hbc))
    · intro a b
      simpa using Nat.le_total a.1 b.1
  exact hs.imp of_decide_eq_true

theorem landmarks_eq (s : Text) : landmarks s = lineLandmarks (Text.placed 0 s.lines) := by
  have hl := pairwise_lineLandmarks 0 s.lines
  have hle : (lineLandmarks (Text.placed 0 s.lines)).Pairwise fun a b => a.1 ≤ b.1 :=
    hl.imp Nat.le_of_lt
  refine List.Perm.eq_of_pairwise ?_ (sorted_landmarks s) hle (landmarks_perm s)
  intro a b ha hb hab hba
  have ha' := (landmarks_perm s).mem_iff.mp ha
  have hinj : ((lineLandmarks (Text.placed 0 s.lines)).map Prod.fst).Nodup :=
    List.pairwise_map.mpr (hl.imp Nat.ne_of_lt)
  exact List.inj_on_of_nodup_map hinj ha' hb (Nat.le_antisymm hab hba)

theorem scan_eq (comment : Nat → Text) (i : Nat) (ls : List Text) (p : Progress) :
    scan comment i ls p = (lineLandmarks (Text.placed i ls)).foldl (Progress.step comment) p := by
  induction ls generalizing i p with
  | nil => rfl
  | cons l ls ih =>
    rw [scan,ih,Text.placed,lineLandmarks,lineLandmarks,List.filterMap_cons]
    cases landmark? l <;> rfl

/-- One pass over the lines of a text builds its index. -/
theorem ofText_eq_index (s : Text) : ofText s = LineScan.index s := by
  rw [ofText,LineScan.index,landmarks_eq,scan_eq]

end SourceIndex
end DocTags
