import Mathlib.Data.List.Basic

/-! Lists without their repeats. Each item stands where it stands first, so what a list adds behind
another depends on the items of the other only. -/
namespace DocTags
namespace Repeats

variable {α : Type} [BEq α] [LawfulBEq α]

theorem eraseDups_filter (p : α → Bool) (l : List α) :
    (l.filter p).eraseDups = l.eraseDups.filter p := by
  induction hn : l.length using Nat.strongRecOn generalizing l with
  | ind n ih =>
    cases l with
    | nil => rfl
    | cons a l =>
      have hl : (l.filter fun b => !b == a).length < n := by
        rw [← hn,List.length_cons]
        exact Nat.lt_succ_of_le (List.length_filter_le _ _)
      have hh := ih _ hl (l.filter fun b => !b == a) rfl
      rw [List.eraseDups_cons,List.filter_cons,List.filter_cons]
      cases hp : p a with
      | true => rw [if_pos rfl,if_pos rfl,List.eraseDups_cons,List.filter_comm,hh]
      | false =>
        have hf : (l.filter fun b => !b == a).filter p = l.filter p := by
          rw [List.filter_filter]
          refine List.filter_congr fun b _ => ?_
          by_cases hb : b = a <;> simp [hb,hp]
        rw [if_neg Bool.false_ne_true,if_neg Bool.false_ne_true,← hh,hf]

theorem mem_iff_of_eraseDups_eq {as bs : List α} (h : as.eraseDups = bs.eraseDups) (a : α) :
    a ∈ as ↔ a ∈ bs := by
  rw [← List.mem_eraseDups,h,List.mem_eraseDups]

theorem eraseDups_append_congr_left {as bs : List α} (h : as.eraseDups = bs.eraseDups) (cs : List α) :
    (as ++ cs).eraseDups = (bs ++ cs).eraseDups := by
  have hr : cs.removeAll as = cs.removeAll bs := by
    refine List.filter_congr fun c _ => ?_
    have hm := mem_iff_of_eraseDups_eq h c
    by_cases hc : c ∈ as
    · simp [hc,hm.mp hc]
    · simp [hc,mt hm.mpr hc]
  rw [List.eraseDups_append,List.eraseDups_append,h,hr]

/-- Lists that are the same behind some items are the same behind more. -/
theorem eraseDups_append_congr_right {ps cs as bs : List α} (hc : ∀ c ∈ cs, c ∈ ps)
    (h : (cs ++ as).eraseDups = (cs ++ bs).eraseDups) :
    (ps ++ as).eraseDups = (ps ++ bs).eraseDups := by
  have hr (xs : List α) : (xs.removeAll ps).eraseDups =
      (xs.removeAll cs).eraseDups.filter fun x => !ps.elem x := by
    rw [← eraseDups_filter]
    congr 1
    rw [List.removeAll,List.removeAll,List.filter_filter]
    refine List.filter_congr fun x _ => ?_
    by_cases hx : x ∈ cs
    · simp [hx,hc x hx]
    · simp [hx]
  rw [List.eraseDups_append,List.eraseDups_append] at h
  rw [List.eraseDups_append,List.eraseDups_append,hr as,hr bs,List.append_cancel_left h]

end Repeats
end DocTags
