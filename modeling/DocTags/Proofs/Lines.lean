import DocTags.SourcePattern
import Mathlib.Data.List.Basic

/-! Matches line by line. A pattern that starts at the start of a line and does not leave it is found
by trying it once on each line. -/
namespace DocTags

namespace Text

theorem lines_of_notMem {l : Text} (h : '\n' ∉ l) : lines l = [l] := by
  induction l with
  | nil => rfl
  | cons c l ih =>
    simp only [List.mem_cons,not_or] at h
    rw [lines,if_neg (Ne.symm h.1),ih h.2]

theorem lines_append_lineFeed {l : Text} (h : '\n' ∉ l) (t : Text) :
    lines (l ++ '\n' :: t) = l :: lines t := by
  induction l with
  | nil => rw [List.nil_append,lines,if_pos rfl]
  | cons c l ih =>
    simp only [List.mem_cons,not_or] at h
    rw [List.cons_append,lines,if_neg (Ne.symm h.1),ih h.2]

/-- Every text is a last line, or a line and a line feed before another text. -/
@[elab_as_elim] theorem line_induction {P : Text → Prop} (last : ∀ l, '\n' ∉ l → P l)
    (line : ∀ l t, '\n' ∉ l → P t → P (l ++ '\n' :: t)) (s : Text) : P s := by
  induction hn : s.length using Nat.strongRecOn generalizing s with
  | ind n ih =>
    by_cases h : '\n' ∈ s
    · obtain ⟨l,t,rfl,hl⟩ := List.eq_append_cons_of_mem h
      have ht : t.length < n := by
        rw [← hn,List.length_append,List.length_cons]
        omega
      exact line l t hl (ih t.length ht t rfl)
    · exact last s h

theorem lines_append (s t : Text) : lines (s ++ '\n' :: t) = lines s ++ lines t := by
  induction s using line_induction with
  | last l hl => rw [lines_append_lineFeed hl,lines_of_notMem hl,List.singleton_append]
  | line l u hl ih =>
    rw [List.append_assoc,List.cons_append,lines_append_lineFeed hl,ih,lines_append_lineFeed hl,
      List.cons_append]

theorem exists_lines_append {l : Text} (h : '\n' ∉ l) (t : Text) :
    ∃ u, '\n' ∉ u ∧ lines t = u :: (lines t).tail ∧ lines (l ++ t) = (l ++ u) :: (lines t).tail := by
  induction t using line_induction with
  | last u hu =>
    have hlu : '\n' ∉ l ++ u := by simp [h,hu]
    exact ⟨u,hu,by rw [lines_of_notMem hu]; rfl,by rw [lines_of_notMem hu,lines_of_notMem hlu]; rfl⟩
  | line u v hu _ =>
    have hlu : '\n' ∉ l ++ u := by simp [h,hu]
    refine ⟨u,hu,?_,?_⟩
    · rw [lines_append_lineFeed hu]
      rfl
    · rw [← List.append_assoc,lines_append_lineFeed hlu,lines_append_lineFeed hu]
      rfl

theorem notMem_of_mem_lines {s l : Text} (h : l ∈ s.lines) : '\n' ∉ l := by
  induction s using line_induction with
  | last u hu =>
    rw [lines_of_notMem hu] at h
    exact List.mem_singleton.mp h ▸ hu
  | line u t hu ih =>
    rw [lines_append_lineFeed hu] at h
    rcases List.mem_cons.mp h with rfl | h
    · exact hu
    · exact ih h

/-- The lines of a text with the places where they start. -/
def placed : (i : Nat) → List Text → List (Nat × Text)
  | _,[] => []
  | i,l :: ls => (i,l) :: placed (i+l.length+1) ls

theorem placed_lines_append (i : Nat) (s t : Text) :
    placed i (s ++ '\n' :: t).lines = placed i s.lines ++ placed (i+s.length+1) t.lines := by
  induction s using line_induction generalizing i with
  | last l hl => rw [lines_append_lineFeed hl,lines_of_notMem hl,placed,placed,placed]; rfl
  | line l u hl ih =>
    have hi : i+l.length+1+u.length+1 = i+(l ++ '\n' :: u).length+1 := by
      simp only [List.length_append,List.length_cons]
      omega
    rw [List.append_assoc,List.cons_append,lines_append_lineFeed hl,lines_append_lineFeed hl,placed,
      placed,ih,List.cons_append,hi]

theorem placed_add (n i : Nat) (ls : List Text) :
    placed (n+i) ls = (placed i ls).map fun e => (n+e.1,e.2) := by
  induction ls generalizing i with
  | nil => rfl
  | cons l ls ih =>
    have hi : n+i+l.length+1 = n+(i+l.length+1) := by omega
    rw [placed,placed,hi,ih,List.map_cons]

theorem mem_of_mem_placed {i : Nat} {ls : List Text} {e : Nat × Text} (h : e ∈ placed i ls) :
    e.2 ∈ ls := by
  induction ls generalizing i with
  | nil => cases h
  | cons l ls ih =>
    rcases List.mem_cons.mp h with rfl | h
    · exact List.mem_cons_self
    · exact List.mem_cons_of_mem l (ih h)

theorem notMem_of_mem_placed {i : Nat} {s : Text} {e : Nat × Text} (h : e ∈ placed i s.lines) :
    '\n' ∉ e.2 :=
  notMem_of_mem_lines (mem_of_mem_placed h)

theorem le_of_mem_placed {i : Nat} {ls : List Text} {e : Nat × Text} (h : e ∈ placed i ls) :
    i ≤ e.1 := by
  induction ls generalizing i with
  | nil => cases h
  | cons l ls ih =>
    rcases List.mem_cons.mp h with rfl | h
    · exact Nat.le_refl _
    · have hh := ih h
      omega

theorem le_length_of_mem_placed {i : Nat} {s : Text} {e : Nat × Text} (h : e ∈ placed i s.lines) :
    e.1 ≤ i+s.length := by
  induction s using line_induction generalizing i with
  | last l hl =>
    rw [lines_of_notMem hl] at h
    rw [List.mem_singleton.mp h]
    exact Nat.le_add_right i _
  | line l t hl ih =>
    rw [lines_append_lineFeed hl] at h
    rw [List.length_append,List.length_cons]
    rcases List.mem_cons.mp h with rfl | h
    · exact Nat.le_add_right i _
    · have hh := ih h
      omega

theorem pairwise_placed (i : Nat) (ls : List Text) :
    (placed i ls).Pairwise fun a b => a.1 < b.1 := by
  induction ls generalizing i with
  | nil => exact List.Pairwise.nil
  | cons l ls ih =>
    refine List.Pairwise.cons (fun e he => ?_) (ih _)
    have hh := le_of_mem_placed he
    omega

section

variable {p : Char → Bool} (hp : p '\n' = false)
include hp

theorem takeWhile_append_lineFeed (l t : Text) :
    (l ++ '\n' :: t).takeWhile p = l.takeWhile p := by
  induction l with
  | nil => simp [hp]
  | cons c l ih => by_cases hc : p c = true <;> simp [hc,ih]

theorem dropWhile_append_lineFeed (l t : Text) :
    (l ++ '\n' :: t).dropWhile p = l.dropWhile p ++ '\n' :: t := by
  induction l with
  | nil => simp [hp]
  | cons c l ih => by_cases hc : p c = true <;> simp [hc,ih]

end

end Text

namespace SourcePattern

variable {α : Type}

/-- A pattern that matches at the start of a line only and ends in the same line. -/
structure LinePattern (p : Pattern α) : Prop where
  anchored : ∀ s, p false s = none
  inLine : ∀ l t, '\n' ∉ l → p true (l ++ '\n' :: t) = (p true l).map fun m => (m.1,m.2 ++ '\n' :: t)
  notEmpty : p true [] = none
  shorter : ∀ l m, p true l = some m → m.2.length ≤ l.length

def captures (ms : List (Match α)) : List (Nat × α) := ms.map fun m => (m.start,m.found)

def lineCaptures (p : Pattern α) (ls : List (Nat × Text)) : List (Nat × α) :=
  ls.filterMap fun e => (p true e.2).map fun m => (e.1,m.1)

variable {p : Pattern α} (hp : LinePattern p)
include hp

/-- Inside a line nothing more is found, behind a match or without one. -/
theorem findFrom_inside (u t : Text) (i k : Nat) (hu : '\n' ∉ u) (hk : k ≤ u.length) :
    findFrom p i k false (u ++ '\n' :: t) = findFrom p (i+u.length+1) 0 true t := by
  induction u generalizing i k with
  | nil =>
    have hz : k = 0 := Nat.le_zero.mp hk
    subst hz
    rw [List.nil_append,findFrom,hp.anchored]
    rfl
  | cons c u ih =>
    simp only [List.mem_cons,not_or] at hu
    have hc : (c == '\n') = false := beq_false_of_ne (Ne.symm hu.1)
    have hi : i+1+u.length+1 = i+(c :: u).length+1 := by
      rw [List.length_cons]
      omega
    cases k with
    | zero =>
      have hh := ih (i+1) 0 hu.2 (Nat.zero_le _)
      rw [hi] at hh
      rw [List.cons_append,findFrom,hp.anchored,hc]
      exact hh
    | succ k =>
      have hh := ih (i+1) k hu.2 (Nat.le_of_succ_le_succ hk)
      rw [hi] at hh
      rw [List.cons_append,findFrom,hc]
      exact hh

theorem findFrom_inside_last (u : Text) (i k : Nat) (hu : '\n' ∉ u) :
    findFrom p i k false u = [] := by
  induction u generalizing i k with
  | nil => cases k <;> rfl
  | cons c u ih =>
    simp only [List.mem_cons,not_or] at hu
    have hc : (c == '\n') = false := beq_false_of_ne (Ne.symm hu.1)
    cases k with
    | zero =>
      rw [findFrom,hp.anchored,hc]
      exact ih (i+1) 0 hu.2
    | succ k =>
      rw [findFrom,hc]
      exact ih (i+1) k hu.2

theorem captures_line (l t : Text) (i : Nat) (hl : '\n' ∉ l) :
    captures (findFrom p i 0 true (l ++ '\n' :: t)) =
      lineCaptures p [(i,l)] ++ captures (findFrom p (i+l.length+1) 0 true t) := by
  cases l with
  | nil =>
    have hn := hp.inLine [] t hl
    rw [hp.notEmpty] at hn
    simp only [List.nil_append] at hn ⊢
    rw [findFrom,hn]
    simp [lineCaptures,hp.notEmpty]
  | cons c u =>
    have hm := hp.inLine (c :: u) t hl
    simp only [List.mem_cons,not_or] at hl
    have hc : (c == '\n') = false := beq_false_of_ne (Ne.symm hl.1)
    have hi : i+1+u.length+1 = i+(c :: u).length+1 := by
      rw [List.length_cons]
      omega
    rw [List.cons_append] at hm ⊢
    cases ho : p true (c :: u) with
    | none =>
      have hh := findFrom_inside hp u t (i+1) 0 hl.2 (Nat.zero_le _)
      rw [ho,Option.map_none] at hm
      rw [hi] at hh
      rw [findFrom,hm,hc]
      simp [lineCaptures,ho,hh]
    | some m =>
      have hs := hp.shorter _ _ ho
      rw [List.length_cons] at hs
      rw [ho,Option.map_some] at hm
      rw [findFrom,hm,hc]
      have hk : (u ++ '\n' :: t).length+1-(m.2 ++ '\n' :: t).length-1 ≤ u.length := by
        simp only [List.length_append,List.length_cons]
        omega
      have hh := findFrom_inside hp u t (i+1) _ hl.2 hk
      rw [hi] at hh
      simp only [captures,List.map_cons,lineCaptures,List.filterMap_cons,List.filterMap_nil,ho,
        Option.map_some,hh,List.cons_append,List.nil_append]

theorem captures_last (l : Text) (i : Nat) (hl : '\n' ∉ l) :
    captures (findFrom p i 0 true l) = lineCaptures p [(i,l)] := by
  cases l with
  | nil => simp [findFrom,captures,lineCaptures,hp.notEmpty]
  | cons c u =>
    simp only [List.mem_cons,not_or] at hl
    have hc : (c == '\n') = false := beq_false_of_ne (Ne.symm hl.1)
    rw [findFrom,hc]
    cases ho : p true (c :: u) with
    | none => simp [findFrom_inside_last hp u _ _ hl.2,lineCaptures,captures,ho]
    | some m => simp [findFrom_inside_last hp u _ _ hl.2,lineCaptures,captures,ho]

theorem captures_findFrom (s : Text) (i : Nat) :
    captures (findFrom p i 0 true s) = lineCaptures p (Text.placed i s.lines) := by
  induction s using Text.line_induction generalizing i with
  | last l hl =>
    rw [captures_last hp l i hl,Text.lines_of_notMem hl]
    rfl
  | line l t hl ih =>
    rw [captures_line hp l t i hl,ih,Text.lines_append_lineFeed hl,Text.placed]
    exact List.filterMap_append.symm

/-- One try on each line finds what the search through the whole text finds. -/
theorem captures_findAll (s : Text) :
    captures (findAll p s) = lineCaptures p (Text.placed 0 s.lines) :=
  captures_findFrom hp s 0

end SourcePattern
end DocTags
