import DocTags.Proofs.CommentGaps

/-! The lines that a doc comment can be attached across. A declaration gets the last comment before it
over blank lines and over every line that starts like an attribute, whatever else such a line holds;
so a declaration behind an attribute in one line hands its comment on. -/
namespace DocTags

namespace Text

theorem infix_of_mem_lines {s l : Text} (h : l ∈ s.lines) : l <:+: s := by
  induction s using line_induction with
  | last u hu =>
    rw [lines_of_notMem hu] at h
    exact List.mem_singleton.mp h ▸ List.infix_refl u
  | line u t hu ih =>
    rw [lines_append_lineFeed hu] at h
    rcases List.mem_cons.mp h with rfl | h
    · exact (List.prefix_append _ _).isInfix
    · exact (ih h).trans ⟨u ++ ['\n'],[],by simp⟩

end Text

namespace SourcePattern

theorem cutComment?_eq_none_iff {s : Text} :
    cutComment? s = none ↔ ∀ a b t, s ≠ a ++ (docOpen ++ (b ++ (docClose ++ t))) := by
  constructor
  · intro h a b t hs
    rw [cutComment?,Option.bind_eq_none_iff] at h
    cases ho : Text.cut? docOpen s with
    | none => exact Text.cut?_eq_none_iff.mp ho a _ hs
    | some p =>
      obtain ⟨hp,hfirst⟩ := Text.cut?_eq_some_iff.mp (show _ = some (p.1,p.2) from ho)
      have hc : Text.cut? docClose p.2 = none := Option.map_eq_none_iff.mp (h p ho)
      have hle := hfirst a _ hs
      have hl := congrArg List.length hs
      have hl' := congrArg List.length hp
      simp only [List.length_append] at hl hl'
      -- the first opening delimiter is before this closing one as well
      have hclose : b ++ (docClose ++ t) <:+ s := ⟨a ++ docOpen,by rw [hs,List.append_assoc]⟩
      have hbehind : p.2 <:+ s := ⟨p.1 ++ docOpen,by rw [List.append_assoc,← hp]⟩
      obtain ⟨u,hu⟩ := List.suffix_of_suffix_length_le hclose hbehind (by
        simp only [List.length_append]
        omega)
      exact Text.cut?_eq_none_iff.mp hc (u ++ b) t (by rw [← hu,List.append_assoc])
  · intro h
    cases hc : cutComment? s with
    | none => rfl
    | some p => exact absurd (eq_append_of_cutComment? hc) (h p.1 p.2.1 p.2.2)

theorem cutComment?_eq_none_of_infix {s t : Text} (h : cutComment? s = none) (ht : t <:+: s) :
    cutComment? t = none := by
  obtain ⟨x,y,rfl⟩ := ht
  refine cutComment?_eq_none_iff.mpr ?_
  rintro a b u rfl
  exact cutComment?_eq_none_iff.mp h (x ++ a) b (u ++ y) (by simp)

theorem cutComment?_append_of_notMem {s v : Text} (hs : cutComment? s = none) (hv : '/' ∉ v) :
    cutComment? (s ++ v) = none := by
  refine cutComment?_eq_none_iff.mpr fun a b t h => ?_
  have hslash : s ++ v = (a ++ (docOpen ++ (b ++ ['*']))) ++ '/' :: t := by
    rw [h]
    simp [docClose]
  rcases List.append_eq_append_iff.mp hslash with ⟨u,-,hu⟩ | ⟨u,hu,hut⟩
  · exact hv (by rw [hu]; simp)
  · cases u with
    | nil => exact hv (by rw [← List.nil_append v,← hut]; simp)
    | cons c u =>
      obtain ⟨rfl,-⟩ := List.cons.inj hut
      exact cutComment?_eq_none_iff.mp hs a b u (by rw [hu]; simp [docClose])

theorem exists_docSpans_eq_of_mem {i : Nat} {s : Text} {m : Match Text} (h : m ∈ docSpans i s) :
    ∃ before u t, s = u ++ t ∧ m.stop = i+u.length ∧
      docSpans i s = before ++ m :: docSpans m.stop t := by
  induction hn : s.length using Nat.strongRecOn generalizing i s with
  | ind n ih =>
    cases hc : cutComment? s with
    | none =>
      rw [docSpans_of_none hc] at h
      cases h
    | some p =>
      obtain ⟨a,b,t⟩ := p
      have hs : s = (a ++ (docOpen ++ (b ++ docClose))) ++ t := by
        rw [eq_append_of_cutComment? hc]
        simp only [List.append_assoc]
      have hstop : i+a.length+(docOpen ++ (b ++ docClose)).length =
          i+(a ++ (docOpen ++ (b ++ docClose))).length := by
        simp only [List.length_append]
        omega
      rw [docSpans_of_some hc,hstop] at h ⊢
      rcases List.mem_cons.mp h with rfl | h
      · exact ⟨[],_,t,hs,rfl,rfl⟩
      · obtain ⟨before,u,v,rfl,hm,hd⟩ := ih t.length (hn ▸ length_lt_of_cutComment? hc) h rfl
        refine ⟨_ :: before,(a ++ (docOpen ++ (b ++ docClose))) ++ u,v,?_,?_,by rw [hd]; rfl⟩
        · rw [hs]
          simp only [List.append_assoc]
        · simp only [hm,List.length_append]
          omega

end SourcePattern

namespace SourceIndex

open SourcePattern LineScan

/-- The line stands between a declaration of some source and the comment that it gets. -/
def Crossed (l : Text) : Prop :=
  ∃ s, ∃ a ∈ landmarks s, ∃ m, attached? s (findAll docComment s) a.1 = some m ∧
    l ∈ (between s m a.1).lines

theorem cutComment?_between {s : Text} {i : Nat} {m : Match Text}
    (h : attached? s (findAll docComment s) i = some m) : cutComment? (between s m i) = none := by
  obtain ⟨hm,hi,hlast,-⟩ := attached?_eq_some_iff.mp h
  rw [findAll_docComment] at hm hlast
  obtain ⟨before,u,v,hs,hstop,hd⟩ := exists_docSpans_eq_of_mem hm
  have hgap : between s m i = v.take (i-m.stop) := by
    rw [between,List.drop_take,hs,hstop,Nat.zero_add,List.drop_left]
  rw [hgap]
  cases hc : cutComment? (v.take (i-m.stop)) with
  | none => rfl
  | some p =>
    exfalso
    obtain ⟨a,b,t⟩ := p
    have hv := cutComment?_append hc (v.drop (i-m.stop))
    rw [List.take_append_drop] at hv
    have hl := congrArg List.length (eq_append_of_cutComment? hc)
    have hle := List.length_take_le (i-m.stop) v
    rw [docSpans_of_some hv] at hd
    have hnext := hlast ⟨m.stop+a.length,m.stop+a.length+(docOpen ++ (b ++ docClose)).length,b⟩
      (by rw [hd]; simp)
    have ho : 0 < docOpen.length := by decide
    simp only [List.length_append] at hl hnext
    omega

theorem findAll_docComment_eq_nil_iff {s : Text} :
    findAll docComment s = [] ↔ cutComment? s = none := by
  rw [findAll_docComment]
  cases hc : cutComment? s with
  | none => simp [docSpans_of_none hc]
  | some p => simp [docSpans_of_some (show _ = some (p.1,p.2.1,p.2.2) from hc)]

def commentAndLine (x l : Text) : Text := docText x ++ ('\n' :: l ++ ['\n'])

section

variable {x l n : Text} (hx : ¬ docClose <:+: x) (hl : '\n' ∉ l)
  (hloose : l.trim = [] ∨ "#[".toList <+: l.trim) (hc : cutComment? l = none) (hn : IsName n)

include hn in
theorem mem_landmarks_commentAndLine :
    ((commentAndLine x l).length,.classDeclaration n) ∈
      landmarks (commentAndLine x l ++ classLine n) := by
  have hcl : '\n' ∉ classLine n := notMem_classLine hn rfl (by decide)
  have hm := (landmark?_eq_classDeclaration_iff hcl).mpr (declaresClass_classLine hn)
  refine mem_landmarks_iff.mpr ⟨(_,classLine n),Text.mem_placed_iff.mpr ⟨hcl,?_⟩,rfl,hm⟩
  refine ⟨commentAndLine x l,[],by simp,rfl,fun c h => ?_,by simp [Text.StartsBreak]⟩
  rw [commentAndLine,← List.append_assoc,List.getLast?_concat] at h
  exact (Option.some.inj h).symm

include hx hc hn in
theorem docSpans_commentAndLine :
    docSpans 0 (commentAndLine x l ++ classLine n) = [⟨0,(docText x).length,x⟩] := by
  have hrest : cutComment? ('\n' :: l ++ '\n' :: classLine n) = none := by
    refine cutComment?_append_of_notMem ?_ ?_
    · rw [cutComment?_cons rfl,hc,Option.map_none]
    · rw [List.mem_cons,not_or]
      exact ⟨by decide,notMem_classLine hn rfl (by decide)⟩
  have hs : commentAndLine x l ++ classLine n =
      docText x ++ ('\n' :: l ++ '\n' :: classLine n) := by simp [commentAndLine]
  rw [hs,docSpans_of_some (cutComment?_docText hx _),docSpans_of_none hrest]
  simp [docText]

theorem between_commentAndLine :
    between (commentAndLine x l ++ classLine n) ⟨0,(docText x).length,x⟩ (commentAndLine x l).length =
      '\n' :: l ++ ['\n'] := by
  rw [between,List.take_left,commentAndLine,List.drop_left]

include hl in
theorem lines_between_commentAndLine :
    (between (commentAndLine x l ++ classLine n) ⟨0,(docText x).length,x⟩
      (commentAndLine x l).length).lines = [[],l,[]] := by
  have hb : '\n' :: l ++ ['\n'] = [] ++ '\n' :: (l ++ '\n' :: []) := by simp
  rw [between_commentAndLine,hb,Text.lines_append_lineFeed (by simp),Text.lines_append_lineFeed hl]
  rfl

include hx hl hloose hc hn in
theorem attached?_commentAndLine :
    attached? (commentAndLine x l ++ classLine n)
      (findAll docComment (commentAndLine x l ++ classLine n)) (commentAndLine x l).length =
        some ⟨0,(docText x).length,x⟩ := by
  refine attached?_eq_some_iff.mpr ?_
  rw [findAll_docComment,docSpans_commentAndLine hx hc hn,lines_between_commentAndLine hl]
  refine ⟨List.mem_singleton_self _,by simp [commentAndLine],by simp,fun k hk => ?_⟩
  rcases List.mem_cons.mp hk with rfl | hk
  · exact Or.inl rfl
  · rcases List.mem_cons.mp hk with rfl | hk
    · exact hloose
    · obtain rfl := List.mem_singleton.mp hk
      exact Or.inl rfl

include hx hl hloose hc hn in
theorem comment_commentAndLine :
    (ofText (commentAndLine x l ++ classLine n)).comment ⟨n,none⟩ = stored x := by
  have hs : commentAndLine x l ++ classLine n =
      (docText x ++ '\n' :: l) ++ '\n' :: classLine n := by simp [commentAndLine]
  have hi : (docText x ++ '\n' :: l).length+1 = (commentAndLine x l).length := by
    simp [commentAndLine,Nat.add_assoc]
  have hh := comment_of_lastLine hn (docText x ++ '\n' :: l)
  rw [← hs,hi] at hh
  rw [hh,docAbove_of_attached? (attached?_commentAndLine hx hl hloose hc hn)]

end

/-- Blank lines and lines that start like attributes can be crossed, if no doc comment is in them, and
no others. -/
theorem crossed_iff {l : Text} : Crossed l ↔
    '\n' ∉ l ∧ (l.trim = [] ∨ "#[".toList <+: l.trim) ∧ findAll docComment l = [] := by
  rw [findAll_docComment_eq_nil_iff]
  constructor
  · rintro ⟨s,a,-,m,hm,hl⟩
    refine ⟨Text.notMem_of_mem_lines hl,(attached?_eq_some_iff.mp hm).2.2.2 l hl,?_⟩
    exact cutComment?_eq_none_of_infix (cutComment?_between hm) (Text.infix_of_mem_lines hl)
  · rintro ⟨hl,hloose,hc⟩
    have hx : ¬ docClose <:+: [] := by decide
    refine ⟨_,_,mem_landmarks_commentAndLine isName_A,_,
      attached?_commentAndLine hx hl hloose hc isName_A,?_⟩
    rw [lines_between_commentAndLine hl]
    simp

/-- A declaration gets its comment over blank lines and lines that start like attributes, and over no
other declaration or closing brace that the index knows. So only blank lines and attributes are between
exactly if the lines that start like attributes end like them. Each line that starts so can be crossed,
whatever it ends with: a class under it gets the comment that stands above it. -/
theorem attached_across_loose_lines (s l : Text) :
    (∀ a ∈ landmarks s, ∀ m, attached? s (findAll docComment s) a.1 = some m ↔
      m ∈ findAll docComment s ∧ m.stop ≤ a.1 ∧
        (∀ k ∈ findAll docComment s, k.stop ≤ a.1 → k.stop ≤ m.stop) ∧
        (∀ b ∈ landmarks s, m.stop ≤ b.1 → a.1 ≤ b.1) ∧
        ∀ k ∈ (between s m a.1).lines, k.trim = [] ∨ "#[".toList <+: k.trim) ∧
    (∀ a m, attached? s (findAll docComment s) a = some m →
      ((∀ k ∈ (between s m a).lines,
          k.trim = [] ∨ "#[".toList <+: k.trim ∧ "]".toList <:+ k.trim) ↔
        ∀ k ∈ (between s m a).lines, "#[".toList <+: k.trim → "]".toList <:+ k.trim)) ∧
    (Crossed l ↔ '\n' ∉ l ∧ (l.trim = [] ∨ "#[".toList <+: l.trim) ∧ findAll docComment l = []) ∧
    ∀ x n, ¬ docClose <:+: x → '\n' ∉ l → "#[".toList <+: l.trim →
      findAll docComment l = [] → IsName n →
        (ofText (docText x ++ '\n' :: (l ++ '\n' :: classLine n))).comment ⟨n,none⟩ = stored x := by
  refine ⟨fun a ha m => ?_,fun a m h => ?_,crossed_iff,fun x n hx hl hloose hc hn => ?_⟩
  · constructor
    · intro h
      obtain ⟨hm,hi,hlast,hlines⟩ := attached?_eq_some_iff.mp h
      exact ⟨hm,hi,hlast,fun b hb hmb => le_of_attached? hb ha h hmb,hlines⟩
    · rintro ⟨hm,hi,hlast,-,hlines⟩
      exact attached?_eq_some_iff.mpr ⟨hm,hi,hlast,hlines⟩
  · obtain ⟨-,-,-,hlines⟩ := attached?_eq_some_iff.mp h
    refine ⟨fun hk k hmem hopen => ?_,fun hk k hmem => ?_⟩
    · rcases hk k hmem with hblank | ⟨-,hend⟩
      · rw [hblank] at hopen
        exact absurd (List.prefix_nil.mp hopen) (by decide)
      · exact hend
    · exact (hlines k hmem).imp_right fun hopen => ⟨hopen,hk k hmem hopen⟩
  · have hs : docText x ++ '\n' :: (l ++ '\n' :: classLine n) =
        commentAndLine x l ++ classLine n := by simp [commentAndLine]
    rw [hs]
    exact comment_commentAndLine hx hl (Or.inr hloose) (findAll_docComment_eq_nil_iff.mp hc) hn

def attributeLine : Text := "#[X] function a() \x7b\x7d".toList

def hiddenFunction : Text :=
  "class A\n\x7b\n/** @a */\n".toList ++ attributeLine ++ "\nfunction b() \x7b\x7d\n\x7d\n".toList

theorem mem_landmarks_hiddenFunction :
    (41,Landmark.functionDeclaration ['b']) ∈ landmarks hiddenFunction := by
  rw [landmarks_eq]
  decide

theorem attached_across_attributeLine :
    ((41,Landmark.functionDeclaration ['b']) ∈ landmarks hiddenFunction ∧
      ∀ b ∈ landmarks hiddenFunction, 19 ≤ b.1 → 41 ≤ b.1) ∧
      (attached? hiddenFunction (findAll docComment hiddenFunction) 41 =
          some ⟨10,19," @a ".toList⟩ ∧
        ¬ ∀ k ∈ (between hiddenFunction ⟨10,19," @a ".toList⟩ 41).lines,
          k.trim = [] ∨ "#[".toList <+: k.trim ∧ "]".toList <:+ k.trim) ∧
      ¬ docClose <:+: " @a ".toList ∧ '\n' ∉ attributeLine ∧ "#[".toList <+: attributeLine.trim ∧
      findAll docComment attributeLine = [] ∧ IsName ['A'] ∧
      (ofText (docText " @a ".toList ++ '\n' :: (attributeLine ++ '\n' :: classLine ['A']))).comment
        ⟨['A'],none⟩ = "/** @a".toList := by
  have hb := mem_landmarks_hiddenFunction
  have hm : attached? hiddenFunction (findAll docComment hiddenFunction) 41 =
      some ⟨10,19," @a ".toList⟩ := rfl
  have hx : ¬ docClose <:+: " @a ".toList := by decide
  have hl : '\n' ∉ attributeLine := by decide
  have ha : "#[".toList <+: attributeLine.trim := by decide
  have hc : findAll docComment attributeLine = [] := rfl
  obtain ⟨hattached,hends,-,hunder⟩ := attached_across_loose_lines hiddenFunction attributeLine
  exact ⟨⟨hb,((hattached _ hb _).mp hm).2.2.2.1⟩,⟨hm,(hends _ _ hm).not.mpr (by decide)⟩,
    hx,hl,ha,hc,isName_A,hunder _ _ hx hl ha hc isName_A⟩

/-- The second function gets the comment of the first one, over a line that is no attribute. -/
theorem attached_over_hiddenFunction :
    (41,Landmark.functionDeclaration ['b']) ∈ landmarks hiddenFunction ∧
      attached? hiddenFunction (findAll docComment hiddenFunction) 41 =
        some ⟨10,19," @a ".toList⟩ ∧
      attributeLine ∈ (between hiddenFunction ⟨10,19," @a ".toList⟩ 41).lines ∧
      ¬ (attributeLine.trim = [] ∨
        "#[".toList <+: attributeLine.trim ∧ "]".toList <:+ attributeLine.trim) ∧
      (ofText hiddenFunction).comment ⟨['A'],some ['b']⟩ = "/** @a".toList := by
  refine ⟨mem_landmarks_hiddenFunction,rfl,by decide,by decide,?_⟩
  rw [ofText_eq_index]
  rfl

end SourceIndex
end DocTags
