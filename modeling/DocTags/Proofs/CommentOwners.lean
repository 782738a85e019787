import DocTags.Proofs.CommentGaps
import Mathlib.Data.List.Perm.Subperm

/-! A doc comment documents at most one declaration. The search for the comment of a declaration does
not remember which comments are taken; the line of an earlier declaration bars the way to them. -/
namespace DocTags

namespace SourcePattern

theorem le_start_of_stop_lt {s : Text} {m n : Match Text} (hm : m ∈ docSpans 0 s)
    (hn : n ∈ docSpans 0 s) (h : m.stop < n.stop) : m.stop ≤ n.start := by
  have hp := pairwise_docSpans 0 s
  have hb := (bounds_of_mem_docSpans hm).2
  obtain ⟨before,after,hs⟩ := List.append_of_mem hm
  rw [hs] at hp hn
  rcases List.mem_append.mp hn with hn | hn
  · have hh := (List.pairwise_append.mp hp).2.2 n hn m List.mem_cons_self
    omega
  · rcases List.mem_cons.mp hn with rfl | hn
    · omega
    · exact List.rel_of_pairwise_cons (List.pairwise_append.mp hp).2.1 hn

end SourcePattern

namespace SourceIndex

open SourcePattern LineScan

theorem eq_of_place_eq {s : Text} {a b : Nat × Landmark} (ha : a ∈ landmarks s)
    (hb : b ∈ landmarks s) (h : a.1 = b.1) : a = b := by
  have hp : (landmarks s).Pairwise fun a b => a.1 < b.1 := by
    rw [landmarks_eq]
    exact pairwise_lineLandmarks 0 s.lines
  exact List.inj_on_of_nodup_map (List.pairwise_map.mpr (hp.imp Nat.ne_of_lt)) ha hb h

theorem attached?_in_order {s : Text} {a b : Nat × Landmark} (ha : a ∈ landmarks s)
    (hb : b ∈ landmarks s) (hab : a.1 < b.1) {m n : Match Text}
    (hm : attached? s (findAll docComment s) a.1 = some m)
    (hn : attached? s (findAll docComment s) b.1 = some n) :
    m.stop ≤ a.1 ∧ a.1 < n.stop ∧ m.stop ≤ n.start := by
  obtain ⟨hms,hma,-,-⟩ := attached?_eq_some_iff.mp hm
  obtain ⟨hns,-,-,-⟩ := attached?_eq_some_iff.mp hn
  have han : a.1 < n.stop := by
    by_contra hle
    have hba := le_of_attached? ha hb hn (Nat.le_of_not_lt hle)
    omega
  rw [findAll_docComment] at hms hns
  exact ⟨hma,han,le_start_of_stop_lt hms hns (by omega)⟩

/-- The comments that the declarations of a text get. -/
def owned (s : Text) : List (Match Text) :=
  (declarationsOf s).filterMap fun d => attached? s (findAll docComment s) d.1

theorem exists_landmark_of_mem_declarationsOf {s : Text} {d : Nat × Reference}
    (h : d ∈ declarationsOf s) : ∃ a ∈ landmarks s, a.1 = d.1 := by
  obtain ⟨e,he,hd,hm⟩ := exists_line_of_mem_declarations h
  obtain ⟨l,hl⟩ := Option.isSome_iff_exists.mp hm
  exact ⟨(d.1,l),mem_landmarks_iff.mpr ⟨e,he,hd,hl⟩,rfl⟩

theorem nodup_owned (s : Text) : (owned s).Nodup := by
  refine List.pairwise_filterMap.mpr ((pairwise_declarationsOf s).imp_of_mem ?_)
  rintro d e hd he hde m hm n hn rfl
  obtain ⟨a,ha,had⟩ := exists_landmark_of_mem_declarationsOf hd
  obtain ⟨b,hb,hbe⟩ := exists_landmark_of_mem_declarationsOf he
  rw [← had] at hm hde
  rw [← hbe] at hn hde
  have hh := attached?_in_order ha hb hde hm hn
  omega

theorem length_owned_le (s : Text) : (owned s).length ≤ (findAll docComment s).length := by
  refine (List.subperm_of_subset (nodup_owned s) fun m hm => ?_).length_le
  obtain ⟨d,-,hd⟩ := List.mem_filterMap.mp hm
  exact (attached?_eq_some_iff.mp hd).1

theorem countP_comment_le (s : Text) :
    (ofText s).references.countP (fun r => (ofText s).comment r ≠ []) ≤ (owned s).length := by
  have hsub : (ofText s).references.filter (fun r => (ofText s).comment r ≠ []) ⊆
      ((declarationsOf s).filter
        fun d => (attached? s (findAll docComment s) d.1).isSome).map Prod.snd := by
    intro r hr
    have hc : (ofText s).comment r ≠ [] := of_decide_eq_true (List.mem_filter.mp hr).2
    obtain ⟨i,hi,hci⟩ := exists_of_comment_ne_nil hc
    obtain ⟨m,hm⟩ := exists_attached?_of_docAbove (hci ▸ hc)
    exact List.mem_map.mpr ⟨(i,r),List.mem_filter.mpr ⟨hi,by simp [hm]⟩,rfl⟩
  have hle := (List.subperm_of_subset ((nodup_references s).filter _) hsub).length_le
  rw [List.length_map,← List.countP_eq_length_filter,← List.countP_eq_length_filter] at hle
  rw [owned,List.length_filterMap_eq_countP]
  exact hle

/-- Two declarations never get one comment: the comments of different landmarks are different doc
comments of the text, none of which runs into the other. So a text has no more references with a
comment than doc comments. -/
theorem comments_have_one_owner (s : Text) :
    (∀ a ∈ landmarks s, ∀ b ∈ landmarks s, a ≠ b → ∀ m n,
      attached? s (findAll docComment s) a.1 = some m →
      attached? s (findAll docComment s) b.1 = some n →
        m ∈ findAll docComment s ∧ n ∈ findAll docComment s ∧ m ≠ n ∧
          (m.stop ≤ n.start ∨ n.stop ≤ m.start)) ∧
      (ofText s).references.countP (fun r => (ofText s).comment r ≠ []) ≤
        (findAll docComment s).length := by
  refine ⟨fun a ha b hb hab m n hm hn => ?_,(countP_comment_le s).trans (length_owned_le s)⟩
  have hms := (attached?_eq_some_iff.mp hm).1
  have hns := (attached?_eq_some_iff.mp hn).1
  rcases Nat.lt_or_gt_of_ne fun he => hab (eq_of_place_eq ha hb he) with h | h
  · obtain ⟨hma,han,hmn⟩ := attached?_in_order ha hb h hm hn
    refine ⟨hms,hns,?_,Or.inl hmn⟩
    rintro rfl
    omega
  · obtain ⟨hnb,hbm,hnm⟩ := attached?_in_order hb ha h hn hm
    refine ⟨hms,hns,?_,Or.inr hnm⟩
    rintro rfl
    omega

def redeclared : Text :=
  "/** @a */\nclass A\n\x7b\n    /** @b */\n    #[Get]\n    function f() \x7b\x7d\n\x7d\n".toList ++
    "/** @c */\nclass A \x7b\x7d\n".toList

theorem comments_of_redeclared :
    (10,Landmark.classDeclaration ['A']) ∈ landmarks redeclared ∧
      (77,Landmark.classDeclaration ['A']) ∈ landmarks redeclared ∧
      attached? redeclared (findAll docComment redeclared) 10 = some ⟨0,9," @a ".toList⟩ ∧
      attached? redeclared (findAll docComment redeclared) 77 = some ⟨67,76," @c ".toList⟩ ∧
      (⟨0,9," @a ".toList⟩ : Match Text) ≠ ⟨67,76," @c ".toList⟩ ∧
      (ofText redeclared).references.countP (fun r => (ofText redeclared).comment r ≠ []) ≤ 3 := by
  have hfirst : (10,Landmark.classDeclaration ['A']) ∈ landmarks redeclared := by
    rw [landmarks_eq]
    decide
  have hlast : (77,Landmark.classDeclaration ['A']) ∈ landmarks redeclared := by
    rw [landmarks_eq]
    decide
  have hm : attached? redeclared (findAll docComment redeclared) 10 =
      some ⟨0,9," @a ".toList⟩ := rfl
  have hn : attached? redeclared (findAll docComment redeclared) 77 =
      some ⟨67,76," @c ".toList⟩ := rfl
  obtain ⟨hdiffer,hcount⟩ := comments_have_one_owner redeclared
  have hh := hdiffer _ hfirst _ hlast (by decide) _ _ hm hn
  exact ⟨hfirst,hlast,hm,hn,hh.2.2.1,hcount⟩

end SourceIndex
end DocTags
