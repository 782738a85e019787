import DocTags.Text
import Mathlib.Data.List.DropRight

/-! Cuts of texts, told by their parts: what trimming leaves and drops, and what stands around the
first place of a separator. -/
namespace DocTags
namespace Text

/-- Trimming drops an ending of the class and leaves a text that does not end in the class. -/
theorem trimEnd_eq_iff {p : Char → Bool} {s b : Text} :
    trimEnd p s = b ↔ ∃ t, s = b ++ t ∧ (∀ c ∈ t, p c = true) ∧
      ∀ c, b.getLast? = some c → p c = false := by
  constructor
  · rintro rfl
    refine ⟨s.rtakeWhile p,(List.rdropWhile_append_rtakeWhile ..).symm,?_,?_⟩
    · exact fun c hc => List.mem_rtakeWhile_imp hc
    · intro c hc
      obtain ⟨hn,rfl⟩ := List.mem_getLast?_eq_getLast hc
      exact Bool.eq_false_iff.mpr (List.rdropWhile_last_not p s hn)
  · rintro ⟨t,rfl,ht,hb⟩
    have hr : t.reverse.dropWhile p = [] := by simpa [List.dropWhile_eq_nil_iff] using ht
    have hs : trimEnd p (b ++ t) = trimEnd p b := by
      simp [trimEnd,List.dropWhile_append,hr]
    rw [hs]
    refine List.rdropWhile_eq_self_iff.mpr fun hn => ?_
    simpa using hb (b.getLast hn) (List.getLast?_eq_some_getLast hn)

theorem takeWhile_append_eq {p : Char → Bool} {u v : Text} (hu : ∀ c ∈ u, p c = true)
    (hv : ∀ c, v.head? = some c → p c = false) : (u ++ v).takeWhile p = u := by
  rw [List.takeWhile_append_of_pos hu]
  cases v with
  | nil => simp
  | cons c v => simp [hv c rfl]

theorem dropWhile_append_eq {p : Char → Bool} {u v : Text} (hu : ∀ c ∈ u, p c = true)
    (hv : ∀ c, v.head? = some c → p c = false) : (u ++ v).dropWhile p = v := by
  rw [List.dropWhile_append_of_pos hu]
  cases v with
  | nil => rfl
  | cons c v => simp [hv c rfl]

theorem head?_dropWhile {p : Char → Bool} {s : Text} {c : Char}
    (h : (s.dropWhile p).head? = some c) : p c = false := by
  have hh := List.head?_dropWhile_not p s
  rw [h] at hh
  simpa using hh

structure Trimmed (s : Text) : Prop where
  head : ∀ c, s.head? = some c → isWhiteSpace c = false
  last : ∀ c, s.getLast? = some c → isWhiteSpace c = false

theorem trim_eq_iff {s b : Text} :
    s.trim = b ↔ ∃ u v, s = u ++ (b ++ v) ∧ (∀ c ∈ u, isWhiteSpace c = true) ∧
      (∀ c ∈ v, isWhiteSpace c = true) ∧ Trimmed b := by
  rw [trim,trimEnd_eq_iff]
  constructor
  · rintro ⟨v,hd,hv,hl⟩
    refine ⟨s.takeWhile isWhiteSpace,v,?_,List.all_eq_true.mp List.all_takeWhile,hv,?_,hl⟩
    · rw [← hd,List.takeWhile_append_dropWhile]
    · intro c hc
      refine head?_dropWhile (s := s) ?_
      rw [hd,List.head?_append,hc]
      rfl
  · rintro ⟨u,v,rfl,hu,hv,hb⟩
    cases b with
    | nil =>
      have hd : (u ++ ([] ++ v)).dropWhile isWhiteSpace = [] :=
        List.dropWhile_eq_nil_iff.mpr fun c hc => (List.mem_append.mp hc).elim (hu c) (hv c)
      exact ⟨[],hd,by simp,hb.last⟩
    | cons d b =>
      exact ⟨v,dropWhile_append_eq hu fun c hc => hb.head c (by simpa using hc),hv,hb.last⟩

theorem trim_eq_self_iff {s : Text} : s.trim = s ↔ Trimmed s := by
  constructor
  · intro h
    obtain ⟨-,-,-,-,-,ht⟩ := trim_eq_iff.mp h
    exact ht
  · exact fun h => trim_eq_iff.mpr ⟨[],[],by simp,by simp,by simp,h⟩

theorem length_trim_le (s : Text) : s.trim.length ≤ s.length := by
  obtain ⟨u,v,hs,-⟩ := trim_eq_iff.mp (rfl : s.trim = s.trim)
  have hl := congrArg List.length hs
  simp only [List.length_append] at hl
  omega

/-- A cut ends at the first place of the separator. -/
theorem cut?_eq_some_iff {sep s a b : Text} :
    cut? sep s = some (a,b) ↔
      s = a ++ (sep ++ b) ∧ ∀ x y, s = x ++ (sep ++ y) → a.length ≤ x.length := by
  induction s generalizing a with
  | nil =>
    cases sep with
    | nil => cases a <;> simp [cut?,eq_comm]
    | cons d sep => simp [cut?]
  | cons c r ih =>
    cases hp : sep.isPrefixOf? (c :: r) with
    | some rest =>
      have hs := List.isPrefixOf?_eq_some_iff_append_eq.mp hp
      simp only [cut?,hp,Option.some.injEq,Prod.mk.injEq]
      constructor
      · rintro ⟨rfl,rfl⟩
        exact ⟨hs.symm,by simp⟩
      · rintro ⟨he,hm⟩
        have ha : a = [] := List.length_eq_zero_iff.mp (Nat.le_zero.mp (hm [] rest hs.symm))
        subst ha
        exact ⟨rfl,List.append_cancel_left (hs.trans he)⟩
    | none =>
      have hn : ∀ y, c :: r ≠ sep ++ y := by
        intro y hy
        rw [List.isPrefixOf?_eq_some_iff_append_eq.mpr hy.symm] at hp
        cases hp
      simp only [cut?,hp,Option.map_eq_some_iff,Prod.mk.injEq,Prod.exists]
      constructor
      · rintro ⟨u,v,hc,rfl,rfl⟩
        obtain ⟨hr,hm⟩ := ih.mp hc
        refine ⟨by rw [hr]; rfl,?_⟩
        rintro (_ | ⟨d,x⟩) y hy
        · exact absurd hy (hn y)
        · exact Nat.succ_le_succ (hm x y (List.cons.inj hy).2)
      · rintro ⟨he,hm⟩
        cases a with
        | nil => exact absurd he (hn b)
        | cons d a =>
          obtain ⟨rfl,hr⟩ := List.cons.inj he
          refine ⟨a,b,ih.mpr ⟨hr,?_⟩,rfl,rfl⟩
          intro x y hy
          exact Nat.le_of_succ_le_succ (hm (c :: x) y (by rw [hy]; rfl))

theorem cut?_eq_none_iff {sep s : Text} :
    cut? sep s = none ↔ ∀ x y, s ≠ x ++ (sep ++ y) := by
  induction s with
  | nil =>
    cases sep with
    | nil => simp [cut?]
    | cons d sep => simp [cut?]
  | cons c r ih =>
    cases hp : sep.isPrefixOf? (c :: r) with
    | some rest =>
      have hs := List.isPrefixOf?_eq_some_iff_append_eq.mp hp
      simp only [cut?,hp,reduceCtorEq,false_iff,not_forall,not_not]
      exact ⟨[],rest,hs.symm⟩
    | none =>
      have hn : ∀ y, c :: r ≠ sep ++ y := by
        intro y hy
        rw [List.isPrefixOf?_eq_some_iff_append_eq.mpr hy.symm] at hp
        cases hp
      simp only [cut?,hp,Option.map_eq_none_iff,ih]
      constructor
      · rintro h (_ | ⟨d,x⟩) y hy
        · exact hn y hy
        · exact h x y (List.cons.inj hy).2
      · intro h x y hy
        exact h (c :: x) y (by rw [hy]; rfl)

theorem cut?_append {sep s a b : Text} (h : cut? sep s = some (a,b)) (t : Text) :
    cut? sep (s ++ t) = some (a,b ++ t) := by
  obtain ⟨rfl,hm⟩ := cut?_eq_some_iff.mp h
  refine cut?_eq_some_iff.mpr ⟨by simp only [List.append_assoc],fun x y hxy => ?_⟩
  by_contra hl
  -- a separator further to the front would stand in the first text
  have hx : x ++ sep <+: a ++ (sep ++ b) := by
    have hwhole : x ++ sep <+: a ++ (sep ++ b) ++ t := ⟨y,by rw [hxy,List.append_assoc]⟩
    refine List.prefix_of_prefix_length_le hwhole (List.prefix_append _ t) ?_
    simp only [List.length_append]
    omega
  obtain ⟨z,hz⟩ := hx
  exact hl (hm x z (by rw [← hz,List.append_assoc]))

/-- A separator is cut at its place behind a text unless it stands further to the front, where it may
reach over the end of that text but not to its own end. -/
theorem cut?_append_separator_iff {sep a b : Text} (hs : sep ≠ []) :
    cut? sep (a ++ (sep ++ b)) = some (a,b) ↔ ¬ sep <:+: a ++ sep.dropLast := by
  have hpos : 0 < sep.length := List.length_pos_iff.mpr hs
  have hwhole : a ++ (sep ++ b) = a ++ sep.dropLast ++ (sep.getLast hs :: b) := by
    conv_lhs => rw [← List.dropLast_append_getLast hs]
    simp only [List.append_assoc,List.singleton_append]
  rw [cut?_eq_some_iff]
  constructor
  · rintro ⟨-,hm⟩ ⟨x,y,hxy⟩
    have hfirst := hm x (y ++ (sep.getLast hs :: b)) (by
      rw [hwhole,← hxy,List.append_assoc,List.append_assoc])
    have hlen := congrArg List.length hxy
    simp only [List.length_append,List.length_dropLast] at hlen
    omega
  · refine fun hn => ⟨rfl,fun x y hxy => ?_⟩
    by_contra hx
    have hearly : x ++ sep <+: a ++ (sep ++ b) := ⟨y,by rw [hxy,List.append_assoc]⟩
    have hfront : a ++ sep.dropLast <+: a ++ (sep ++ b) := ⟨_,hwhole.symm⟩
    have hp : x ++ sep <+: a ++ sep.dropLast := by
      refine List.prefix_of_prefix_length_le hearly hfront ?_
      simp only [List.length_append,List.length_dropLast]
      omega
    obtain ⟨z,hz⟩ := hp
    exact hn ⟨x,z,hz⟩

theorem cut?_singleton_eq_some_iff {c : Char} {s a b : Text} :
    cut? [c] s = some (a,b) ↔ s = a ++ c :: b ∧ c ∉ a := by
  rw [cut?_eq_some_iff]
  constructor
  · rintro ⟨he,hm⟩
    refine ⟨he,fun hc => ?_⟩
    obtain ⟨x,y,rfl⟩ := List.append_of_mem hc
    have hl := hm x (y ++ c :: b) (by simp [he])
    simp only [List.length_append,List.length_cons] at hl
    omega
  · rintro ⟨rfl,hc⟩
    refine ⟨rfl,fun x y hxy => ?_⟩
    rcases List.append_eq_append_iff.mp hxy with ⟨u,rfl,-⟩ | ⟨u,rfl,hu⟩
    · simp
    · cases u with
      | nil => simp
      | cons d u =>
        obtain ⟨rfl,-⟩ := List.cons.inj hu
        simp at hc

theorem cut?_singleton_eq_none_iff {c : Char} {s : Text} : cut? [c] s = none ↔ c ∉ s := by
  rw [cut?_eq_none_iff]
  constructor
  · intro h hc
    obtain ⟨x,y,rfl⟩ := List.append_of_mem hc
    exact h x y rfl
  · rintro h x y rfl
    simp at h

theorem notInfix_iff_cut? {s t : Text} : ¬ s <:+: t ↔ cut? s t = none := by
  rw [cut?_eq_none_iff]
  constructor
  · rintro h x y rfl
    exact h ⟨x,y,by simp⟩
  · rintro h ⟨x,y,rfl⟩
    exact h x y (by simp)

end Text
end DocTags
