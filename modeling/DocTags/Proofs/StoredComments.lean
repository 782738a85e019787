import DocTags.Proofs.CommentGaps

/-! The texts that an index stores as comments. They start with the opening delimiter, end in no white
space and hold no closing delimiter, but for the one that the opening delimiter makes with a slash
behind it. -/
namespace DocTags

namespace Text

theorem notInfix_of_cut? {sep s a b : Text} (hn : sep ≠ []) (h : cut? sep s = some (a,b)) :
    ¬ sep <:+: a := by
  rintro ⟨x,y,rfl⟩
  obtain ⟨hs,hfirst⟩ := cut?_eq_some_iff.mp h
  have hle := hfirst x (y ++ (sep ++ b)) (by rw [hs]; simp)
  have hpos := List.length_pos_iff.mpr hn
  simp only [List.length_append] at hle
  omega

theorem trimEnd_trimEnd (p : Char → Bool) (s : Text) : trimEnd p (trimEnd p s) = trimEnd p s := by
  obtain ⟨-,-,-,hl⟩ := trimEnd_eq_iff.mp (rfl : trimEnd p s = _)
  exact trimEnd_eq_iff.mpr ⟨[],by simp,by simp,hl⟩

end Text

namespace SourcePattern

theorem notInfix_found_of_mem_docSpans {i : Nat} {s : Text} {m : Match Text}
    (h : m ∈ docSpans i s) : ¬ docClose <:+: m.found := by
  induction hn : s.length using Nat.strongRecOn generalizing i s with
  | ind n ih =>
    cases hc : cutComment? s with
    | none =>
      rw [docSpans_of_none hc] at h
      cases h
    | some p =>
      obtain ⟨a,b,t⟩ := p
      rw [docSpans_of_some hc] at h
      rcases List.mem_cons.mp h with rfl | h
      · obtain ⟨q,-,hq⟩ := Option.bind_eq_some_iff.mp hc
        obtain ⟨⟨b',t'⟩,hb,he⟩ := Option.map_eq_some_iff.mp hq
        obtain ⟨-,rfl,-⟩ : q.1 = a ∧ b' = b ∧ t' = t := by simpa using he
        exact Text.notInfix_of_cut? (by decide) hb
      · exact ih t.length (hn ▸ length_lt_of_cutComment? hc) h rfl

end SourcePattern

namespace SourceIndex

open SourcePattern

theorem stored_eq (y : Text) : stored y = docOpen ++ Text.trimEnd isWhiteSpace y := by
  have hs : docOpen ++ y = ['/','*'] ++ '*' :: y := rfl
  rw [stored,hs,Text.trimEnd_append_cons (by decide)]
  rfl

/-- The star of an opening delimiter closes a comment if a slash comes next. -/
theorem docClose_infix_docOpen_append_iff {y : Text} (hy : ¬ docClose <:+: y) :
    docClose <:+: docOpen ++ y ↔ "/**/".toList <+: docOpen ++ y := by
  constructor
  · rintro ⟨a,b,h⟩
    have hd : docOpen ++ y = '/' :: '*' :: '*' :: y := rfl
    rw [hd]
    rw [hd,docClose_eq] at h
    match a,h with
    | [],h => simp at h
    | [c],h => simp at h
    | [c,d],h =>
      obtain ⟨-,-,rfl⟩ : c = '/' ∧ d = '*' ∧ '/' :: b = y := by simpa using h
      exact ⟨b,rfl⟩
    | c :: d :: e :: a,h =>
      obtain ⟨-,-,-,rfl⟩ : c = '/' ∧ d = '*' ∧ e = '*' ∧ a ++ '*' :: '/' :: b = y := by
        simpa using h
      exact absurd ⟨a,b,by simp [docClose_eq]⟩ hy
  · rintro ⟨b,h⟩
    exact ⟨['/','*'],b,by rw [← h]; simp [docClose_eq]⟩

/-- No comment, or an opening delimiter and a text without a closing one, without white space at the
end. -/
def Storable (t : Text) : Prop :=
  t = [] ∨ ∃ y, t = docOpen ++ y ∧ ¬ docClose <:+: y ∧ Text.trimEnd isWhiteSpace t = t

theorem storable_stored {y : Text} (hy : ¬ docClose <:+: y) : Storable (stored y) := by
  refine Or.inr ⟨_,stored_eq y,fun h => hy ?_,Text.trimEnd_trimEnd ..⟩
  exact h.trans (Text.trimEnd_prefix _ _).isInfix

theorem Storable.docClose_infix_iff {t : Text} (h : Storable t) :
    docClose <:+: t ↔ "/**/".toList <+: t := by
  rcases h with rfl | ⟨y,rfl,hy,-⟩
  · decide
  · exact docClose_infix_docOpen_append_iff hy

theorem exists_of_comment {s : Text} {r : Reference} (h : (ofText s).comment r ≠ []) :
    ∃ m ∈ docSpans 0 s, (ofText s).comment r = stored m.found := by
  obtain ⟨i,-,hi⟩ := exists_of_comment_ne_nil h
  obtain ⟨m,hm⟩ := exists_attached?_of_docAbove (hi ▸ h)
  refine ⟨m,?_,hi.trans (docAbove_of_attached? hm)⟩
  rw [← findAll_docComment]
  exact (attached?_eq_some_iff.mp hm).1

theorem storable_comment (s : Text) (r : Reference) : Storable ((ofText s).comment r) := by
  by_cases h : (ofText s).comment r = []
  · exact Or.inl h
  · obtain ⟨m,hm,hc⟩ := exists_of_comment h
    exact hc ▸ storable_stored (notInfix_found_of_mem_docSpans hm)

theorem Storable.exists_source {t : Text} (h : Storable t) :
    ∃ s, ∃ r ∈ (ofText s).references, (ofText s).comment r = t := by
  rcases h with rfl | ⟨y,rfl,hy,ht⟩
  · refine ⟨classLine ['A'],⟨['A'],none⟩,?_,?_⟩
    · rw [ofText_eq_index]
      decide
    · rw [ofText_eq_index]
      rfl
  · have hc : (ofText (classUnder y ['A'])).comment ⟨['A'],none⟩ = docOpen ++ y :=
      (comment_classUnder isName_A hy).trans ht
    refine ⟨classUnder y ['A'],⟨['A'],none⟩,?_,hc⟩
    by_contra hr
    rw [comment_of_notMem_references hr] at hc
    simp [docOpen] at hc

theorem infix_of_prefix_comment {s t : Text} {r : Reference} (ht : t ≠ [])
    (h : t <+: (ofText s).comment r) : t <:+: s := by
  have hne : (ofText s).comment r ≠ [] := by
    intro hn
    rw [hn] at h
    exact ht (List.prefix_nil.mp h)
  obtain ⟨m,hm,hc⟩ := exists_of_comment hne
  obtain ⟨a,u,hs,-,-⟩ := slice_of_mem_docSpans hm
  have hp : t <+: docOpen ++ m.found := (hc ▸ h).trans (Text.trimEnd_prefix _ _)
  exact hp.isInfix.trans ⟨a,docClose ++ u,by rw [hs]; simp⟩

/-- The comments of indexes are exactly the storable texts. One of them holds a closing delimiter if and
only if a slash follows its opening delimiter at once; so none does in a text that has no opening
delimiter with a slash behind it. -/
theorem comment_storable_iff (s t : Text) :
    ((∃ s, ∃ r ∈ (ofText s).references, (ofText s).comment r = t) ↔ Storable t) ∧
      (∀ r, docClose <:+: (ofText s).comment r ↔ "/**/".toList <+: (ofText s).comment r) ∧
      (¬ "/**/".toList <:+: s → ∀ r, ¬ docClose <:+: (ofText s).comment r) := by
  have hclose (r : Reference) :
      docClose <:+: (ofText s).comment r ↔ "/**/".toList <+: (ofText s).comment r :=
    (storable_comment s r).docClose_infix_iff
  refine ⟨⟨?_,Storable.exists_source⟩,hclose,fun hs r hc => ?_⟩
  · rintro ⟨s,r,-,rfl⟩
    exact storable_comment s r
  · exact hs (infix_of_prefix_comment (by decide) ((hclose r).mp hc))

def slashesAndStars : Text := "/**\n * @path a/* b\n *".toList

theorem storable_slashesAndStars :
    (∃ s, ∃ r ∈ (ofText s).references, (ofText s).comment r = slashesAndStars) ∧
      ¬ "/**/".toList <:+: classUnder " @b ".toList ['B'] ∧
      ¬ docClose <:+: (ofText (classUnder " @b ".toList ['B'])).comment ⟨['B'],none⟩ := by
  have hs : Storable slashesAndStars :=
    Or.inr ⟨"\n * @path a/* b\n *".toList,rfl,Text.notInfix_iff_cut?.mpr (by decide),by decide⟩
  have hn : ¬ "/**/".toList <:+: classUnder " @b ".toList ['B'] :=
    Text.notInfix_iff_cut?.mpr (by decide)
  obtain ⟨hstored,-,hclean⟩ := comment_storable_iff (classUnder " @b ".toList ['B']) slashesAndStars
  exact ⟨hstored.mpr hs,hn,hclean hn _⟩

def emptyComment : Text := "/**/\n/** @b */\nclass B \x7b\x7d\n".toList

theorem docClose_infix_comment_emptyComment :
    ⟨['B'],none⟩ ∈ (ofText emptyComment).references ∧
      (ofText emptyComment).comment ⟨['B'],none⟩ = "/**/\n/** @b".toList ∧
      docClose <:+: (ofText emptyComment).comment ⟨['B'],none⟩ := by
  have hr : ⟨['B'],none⟩ ∈ (ofText emptyComment).references := by
    rw [ofText_eq_index]
    decide
  have hc : (ofText emptyComment).comment ⟨['B'],none⟩ = "/**/\n/** @b".toList := by
    rw [ofText_eq_index]
    rfl
  exact ⟨hr,hc,hc ▸ ⟨"/*".toList,"\n/** @b".toList,rfl⟩⟩

end SourceIndex
end DocTags
