import DocTags.Path
import Mathlib.Data.List.Nodup
import Mathlib.Data.List.Perm.Basic

/-! The order of paths. It is total, and paths are equal in it only if their components are, so that
arranged paths stand in strictly increasing order, and each given path has one with its components. -/
namespace DocTags
namespace Path

namespace Component

theorem name_le_iff {m n : Bytes} : (name m).le (name n) = true ↔ m ≤ n := decide_eq_true_iff

theorem le_antisymm {a b : Component} (hab : a.le b = true) (hba : b.le a = true) : a = b := by
  cases a with
  | name m =>
    cases b with
    | name n => rw [List.le_antisymm (name_le_iff.mp hab) (name_le_iff.mp hba)]
    | _ => cases hab
  | _ => cases b <;> simp_all [le,rank]

theorem le_trans {a b c : Component} (hab : a.le b = true) (hbc : b.le c = true) :
    a.le c = true := by
  cases a with
  | name m =>
    cases b with
    | name n =>
      cases c with
      | name k => exact name_le_iff.mpr (List.le_trans (name_le_iff.mp hab) (name_le_iff.mp hbc))
      | _ => cases hbc
    | _ => cases hab
  | _ => cases b <;> cases c <;> simp_all [le,rank]

theorem le_total (a b : Component) : a.le b = true ∨ b.le a = true := by
  cases a with
  | name m =>
    cases b with
    | name n => exact (List.le_total m n).imp name_le_iff.mpr name_le_iff.mpr
    | _ => exact Or.inr rfl
  | _ => cases b <;> simp [le,rank]

end Component

theorem componentsLe_antisymm {as bs : List Component} (hab : componentsLe as bs = true)
    (hba : componentsLe bs as = true) : as = bs := by
  induction as generalizing bs with
  | nil => cases bs <;> simp_all [componentsLe]
  | cons a as ih =>
    cases bs with
    | nil => simp [componentsLe] at hab
    | cons b bs =>
      by_cases h : a = b
      · subst b
        rw [componentsLe,if_pos rfl] at hab hba
        rw [ih hab hba]
      · rw [componentsLe,if_neg h] at hab
        rw [componentsLe,if_neg (Ne.symm h)] at hba
        exact absurd (Component.le_antisymm hab hba) h

theorem componentsLe_trans {as bs cs : List Component} (hab : componentsLe as bs = true)
    (hbc : componentsLe bs cs = true) : componentsLe as cs = true := by
  induction as generalizing bs cs with
  | nil => rfl
  | cons a as ih =>
    cases bs with
    | nil => simp [componentsLe] at hab
    | cons b bs =>
      cases cs with
      | nil => simp [componentsLe] at hbc
      | cons c cs =>
        simp only [componentsLe] at hab hbc ⊢
        by_cases h : a = b
        · subst b
          rw [if_pos rfl] at hab
          by_cases hc : a = c
          · rw [if_pos hc] at hbc ⊢
            exact ih hab hbc
          · rwa [if_neg hc] at hbc ⊢
        · rw [if_neg h] at hab
          by_cases hc : b = c
          · subst c
            rwa [if_neg h]
          · rw [if_neg hc] at hbc
            -- a step down cannot be taken back by the next one
            have hac : a ≠ c := fun he => h (Component.le_antisymm hab (he ▸ hbc))
            rw [if_neg hac]
            exact Component.le_trans hab hbc

theorem componentsLe_total (as bs : List Component) :
    componentsLe as bs = true ∨ componentsLe bs as = true := by
  induction as generalizing bs with
  | nil => exact Or.inl rfl
  | cons a as ih =>
    cases bs with
    | nil => exact Or.inr rfl
    | cons b bs =>
      by_cases h : a = b
      · subst b
        simpa [componentsLe] using ih bs
      · simpa [componentsLe,h,Ne.symm h] using a.le_total b

theorem same_iff {p q : Bytes} : same p q = true ↔ components p = components q := by
  simp [same]

def Before (p q : Bytes) : Prop := le p q = true ∧ components p ≠ components q

instance (p q : Bytes) : Decidable (Before p q) := inferInstanceAs (Decidable (_ ∧ _))

theorem Before.trans {p q r : Bytes} (hpq : Before p q) (hqr : Before q r) : Before p r := by
  refine ⟨componentsLe_trans hpq.1 hqr.1,?_⟩
  intro h
  have hqp : le q p = true := by simpa only [le,h] using hqr.1
  exact hpq.2 (componentsLe_antisymm hpq.1 hqp)

theorem Before.asymm {p q : Bytes} (hpq : Before p q) : ¬ Before q p :=
  fun hqp => hpq.2 (componentsLe_antisymm hpq.1 hqp.1)

theorem Before.ne {p q : Bytes} (h : Before p q) : p ≠ q := fun he => h.2 (he ▸ rfl)

theorem pairwise_mergeSort_le (ps : List Bytes) :
    (ps.mergeSort le).Pairwise fun p q => le p q = true := by
  refine List.pairwise_mergeSort ?_ ?_ ps
  · exact fun p q r => componentsLe_trans
  · intro p q
    exact Bool.or_eq_true_iff.mpr (componentsLe_total (components p) (components q))

theorem mem_of_mem_dropRepeats {ps : List Bytes} {p : Bytes} (h : p ∈ dropRepeats ps) : p ∈ ps := by
  induction ps with
  | nil => simp [dropRepeats] at h
  | cons q ps ih =>
    rw [dropRepeats] at h
    cases hd : dropRepeats ps with
    | nil =>
      rw [hd] at h
      simpa using Or.inl h
    | cons r rs =>
      rw [hd] at h ih
      simp only at h
      split at h
      · rcases List.mem_cons.mp h with rfl | h
        · simp
        · exact List.mem_cons_of_mem _ (ih (List.mem_cons_of_mem _ h))
      · rcases List.mem_cons.mp h with rfl | h
        · simp
        · exact List.mem_cons_of_mem _ (ih h)

theorem exists_same_mem_dropRepeats {ps : List Bytes} {p : Bytes} (h : p ∈ ps) :
    ∃ q ∈ dropRepeats ps, components q = components p := by
  induction ps with
  | nil => cases h
  | cons r ps ih =>
    rw [dropRepeats]
    cases hd : dropRepeats ps with
    | nil =>
      rcases List.mem_cons.mp h with rfl | h
      · exact ⟨p,by simp,rfl⟩
      · obtain ⟨q,hq,-⟩ := ih h
        simp [hd] at hq
    | cons s ss =>
      simp only
      rcases List.mem_cons.mp h with rfl | h
      · exact ⟨p,by split <;> simp,rfl⟩
      · obtain ⟨q,hq,hc⟩ := ih h
        rw [hd] at hq
        split
        case isTrue hs =>
          rcases List.mem_cons.mp hq with rfl | hq
          · exact ⟨r,by simp,(same_iff.mp hs).trans hc⟩
          · exact ⟨q,by simp [hq],hc⟩
        case isFalse => exact ⟨q,List.mem_cons_of_mem _ hq,hc⟩

theorem pairwise_dropRepeats {ps : List Bytes} (h : ps.Pairwise fun p q => le p q = true) :
    (dropRepeats ps).Pairwise Before := by
  induction h with
  | nil => exact .nil
  | @cons p ps hp hps ih =>
    have hm : ∀ q ∈ dropRepeats ps, le p q = true := fun q hq => hp q (mem_of_mem_dropRepeats hq)
    rw [dropRepeats]
    cases hd : dropRepeats ps with
    | nil => simp
    | cons q qs =>
      rw [hd] at ih hm
      obtain ⟨hq,hqs⟩ := List.pairwise_cons.mp ih
      simp only
      split
      case isTrue hs =>
        refine List.pairwise_cons.mpr ⟨fun r hr => ⟨hm r (by simp [hr]),?_⟩,hqs⟩
        exact fun hc => (hq r hr).2 ((same_iff.mp hs).symm.trans hc)
      case isFalse hs =>
        have hpq : Before p q := ⟨hm q (by simp),fun hc => hs (same_iff.mpr hc)⟩
        refine List.pairwise_cons.mpr ⟨?_,ih⟩
        intro r hr
        rcases List.mem_cons.mp hr with rfl | hr
        · exact hpq
        · exact hpq.trans (hq r hr)

/-- Arranged paths stand in strictly increasing order. -/
theorem pairwise_arrange (ps : List Bytes) : (arrange ps).Pairwise Before :=
  pairwise_dropRepeats (pairwise_mergeSort_le ps)

theorem mem_of_mem_arrange {ps : List Bytes} {p : Bytes} (h : p ∈ arrange ps) : p ∈ ps :=
  List.mem_mergeSort.mp (mem_of_mem_dropRepeats h)

theorem exists_same_mem_arrange {ps : List Bytes} {p : Bytes} (h : p ∈ ps) :
    ∃ q ∈ arrange ps, components q = components p :=
  exists_same_mem_dropRepeats (List.mem_mergeSort.mpr h)

/-- No path is dropped where no two have the same components. -/
theorem mem_arrange {ps : List Bytes}
    (hs : ∀ p ∈ ps, ∀ q ∈ ps, components p = components q → p = q) {p : Bytes} :
    p ∈ arrange ps ↔ p ∈ ps := by
  refine ⟨mem_of_mem_arrange,fun h => ?_⟩
  obtain ⟨q,hq,hc⟩ := exists_same_mem_arrange h
  rwa [← hs q (mem_of_mem_arrange hq) p h hc]

theorem eq_of_pairwise_before {ps qs : List Bytes} (hp : ps.Pairwise Before)
    (hq : qs.Pairwise Before) (h : ∀ p, p ∈ ps ↔ p ∈ qs) : ps = qs := by
  have hn : ps.Perm qs :=
    (List.perm_ext_iff_of_nodup (hp.imp Before.ne) (hq.imp Before.ne)).mpr h
  exact hn.eq_of_pairwise (fun p q _ _ hpq hqp => absurd hqp hpq.asymm) hp hq

/-- Paths in increasing order are the arranged ones of all that have the same members. -/
theorem arrange_eq {ps qs : List Bytes} (hq : qs.Pairwise Before) (hps : ps ⊆ qs) (hqs : qs ⊆ ps) :
    arrange ps = qs := by
  have hn : (qs.map components).Nodup := List.pairwise_map.mpr (hq.imp And.right)
  refine eq_of_pairwise_before (pairwise_arrange ps) hq fun p => ?_
  rw [mem_arrange fun p hp q hq h => List.inj_on_of_nodup_map hn (hps hp) (hps hq) h]
  exact ⟨fun h => hps h,fun h => hqs h⟩

end Path
end DocTags
