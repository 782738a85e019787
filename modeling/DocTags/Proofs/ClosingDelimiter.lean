import DocTags.Proofs.CommentAboveClass
import DocTags.Proofs.LineEndingReading

/-! Doc comments read with their delimiters. The tags are those of the stored comment, except that the
last tag of a comment may run into the closing delimiter. -/
namespace DocTags

namespace Text

theorem takeWhile_append_cons {p : Char → Bool} {c : Char} (hc : p c = false) (s t : Text) :
    (s ++ c :: t).takeWhile p = s.takeWhile p := by
  induction s with
  | nil => simp [hc]
  | cons d s ih => by_cases hd : p d = true <;> simp [hd,ih]

section

variable {p : Char → Bool} {t : Text}

theorem trimEnd_append_of_all (h : ∀ c ∈ t, p c = true) (s : Text) :
    trimEnd p (s ++ t) = trimEnd p s := by
  obtain ⟨u,hs,hu,hl⟩ := trimEnd_eq_iff.mp (rfl : trimEnd p s = _)
  refine trimEnd_eq_iff.mpr ⟨u ++ t,?_,?_,hl⟩
  · rw [← List.append_assoc,← hs]
  · intro c hc
    rcases List.mem_append.mp hc with hc | hc
    · exact hu c hc
    · exact h c hc

theorem trimEnd_append_of_exists (h : ∃ c ∈ t, p c = false) (s : Text) :
    trimEnd p (s ++ t) = s ++ trimEnd p t := by
  obtain ⟨u,ht,hu,hl⟩ := trimEnd_eq_iff.mp (rfl : trimEnd p t = _)
  have hne : trimEnd p t ≠ [] := by
    intro hn
    obtain ⟨c,hc,hp⟩ := h
    rw [hn,List.nil_append] at ht
    rw [hu c (ht ▸ hc)] at hp
    cases hp
  refine trimEnd_eq_iff.mpr ⟨u,?_,hu,?_⟩
  · rw [List.append_assoc,← ht]
  · intro c hc
    rw [List.getLast?_append_of_ne_nil _ hne] at hc
    exact hl c hc

theorem trimEnd_append_cons {c : Char} (hc : p c = false) (s t : Text) :
    trimEnd p (s ++ c :: t) = s ++ c :: trimEnd p t := by
  obtain ⟨u,ht,hu,hl⟩ := trimEnd_eq_iff.mp (rfl : trimEnd p t = _)
  refine trimEnd_eq_iff.mpr ⟨u,?_,hu,?_⟩
  · rw [List.append_assoc,List.cons_append,← ht]
  · intro d hd
    rw [List.getLast?_append_cons] at hd
    cases ht : trimEnd p t with
    | nil =>
      rw [ht] at hd
      exact Option.some.inj hd ▸ hc
    | cons e r =>
      rw [ht] at hd hl
      exact hl d hd

theorem trimEnd_prefix (p : Char → Bool) (s : Text) : trimEnd p s <+: s := by
  obtain ⟨u,hs,-,-⟩ := trimEnd_eq_iff.mp (rfl : trimEnd p s = _)
  exact ⟨u,hs.symm⟩

end

end Text

namespace Tag

theorem isWhiteSpace_of_isBlank {c : Char} (h : isBlank c = true) : isWhiteSpace c = true := by
  simp only [isBlank,Bool.or_eq_true,decide_eq_true_eq] at h
  rcases h with (rfl | rfl) | rfl <;> rfl

theorem ofSegment_injective : Function.Injective ofSegment := by
  intro s s' h
  have hs := ofSegment_eq_iff.mp (rfl : ofSegment s = _)
  have hs' := ofSegment_eq_iff.mp (rfl : ofSegment s' = _)
  rw [h] at hs
  generalize ofSegment s' = t at hs hs'
  cases hs <;> cases hs' <;> rfl

theorem segments_append_at {rest : Text} (h : '@' ∉ rest) (s : Text) :
    segments (s ++ '@' :: rest) = segments s ++ [body rest] := by
  have hb (u : Text) : body (u ++ '@' :: rest) = body u := by
    rw [body,body,Text.takeWhile_append_cons (by decide)]
  simp [segments,afterAts_append,afterAts,afterAts_of_notMem h,hb,Function.comp_def]

theorem isTerminator_of_notMem {s : Text} (ha : '@' ∉ s) (hn : '\n' ∉ s) :
    ∀ c ∈ s, isTerminator c = false := by
  intro c hc
  have h : c ≠ '@' := fun h => ha (h ▸ hc)
  have h' : c ≠ '\n' := fun h => hn (h ▸ hc)
  simp [isTerminator,h,h']

theorem body_eq_self {b : Text} (hb : ∀ c ∈ b, isTerminator c = false)
    (hl : ∀ c, b.getLast? = some c → isBlank c = false) : body b = b :=
  body_eq_iff.mpr ⟨⟨[],[],by simp,by simp,by simp [EndsTag]⟩,hb,hl⟩

end Tag

namespace SourceIndex

open SourcePattern

/-- The text behind the last at sign of a comment ends its line, and the white space before the closing
delimiter does not reach back into the tag. -/
def EndsLine (rest : Text) : Prop :=
  ∃ l z, rest = l ++ '\n' :: z ∧ '\n' ∉ l ∧
    ((∃ c ∈ z, isWhiteSpace c = false) ∨
      Text.trimEnd isWhiteSpace l = Text.trimEnd Tag.isBlank l)

theorem endsLine_append_iff {l z : Text} (hl : '\n' ∉ l) : EndsLine (l ++ '\n' :: z) ↔
    (∃ c ∈ z, isWhiteSpace c = false) ∨
      Text.trimEnd isWhiteSpace l = Text.trimEnd Tag.isBlank l := by
  constructor
  · rintro ⟨l',z',he,hl',h⟩
    have hcut := Text.cut?_singleton_eq_some_iff.mpr ⟨he,hl'⟩
    rw [Text.cut?_singleton_eq_some_iff.mpr ⟨rfl,hl⟩] at hcut
    obtain ⟨rfl,rfl⟩ := Prod.mk.inj (Option.some.inj hcut)
    exact h
  · exact fun h => ⟨l,z,rfl,hl,h⟩

theorem not_endsLine {rest : Text} (hn : '\n' ∉ rest) : ¬ EndsLine rest := by
  rintro ⟨l,z,rfl,-,-⟩
  simp at hn

section

variable {rest : Text} (ha : '@' ∉ rest)
include ha

theorem segments_docText (y : Text) : Tag.segments (docText (y ++ '@' :: rest)) =
    Tag.segments (docOpen ++ y) ++ [Tag.body (rest ++ docClose)] := by
  have hr : '@' ∉ rest ++ docClose := by
    simp only [List.mem_append,not_or]
    exact ⟨ha,by decide⟩
  have hd : docText (y ++ '@' :: rest) = (docOpen ++ y) ++ '@' :: (rest ++ docClose) := by
    simp [docText]
  rw [hd,Tag.segments_append_at hr]

theorem segments_stored (y : Text) : Tag.segments (stored (y ++ '@' :: rest)) =
    Tag.segments (docOpen ++ y) ++ [Tag.body (Text.trimEnd isWhiteSpace rest)] := by
  have hr : '@' ∉ Text.trimEnd isWhiteSpace rest :=
    fun h => ha ((Text.trimEnd_prefix _ rest).subset h)
  have hd : stored (y ++ '@' :: rest) =
      (docOpen ++ y) ++ '@' :: Text.trimEnd isWhiteSpace rest := by
    rw [stored,← List.append_assoc,Text.trimEnd_append_cons (by decide)]
  rw [hd,Tag.segments_append_at hr]

/-- A tag in the line of the closing delimiter takes it along. -/
theorem body_append_docClose (hn : '\n' ∉ rest) :
    Tag.body (rest ++ docClose) = rest ++ docClose := by
  refine Tag.body_eq_self (Tag.isTerminator_of_notMem ?_ ?_) ?_
  · simp [docClose_eq,ha]
  · simp [docClose_eq,hn]
  · simp [docClose_eq,Tag.isBlank]

theorem body_trimEnd (hn : '\n' ∉ rest) :
    Tag.body (Text.trimEnd isWhiteSpace rest) = Text.trimEnd isWhiteSpace rest := by
  have hsub := (Text.trimEnd_prefix isWhiteSpace rest).subset
  refine Tag.body_eq_self ?_ ?_
  · exact Tag.isTerminator_of_notMem (fun h => ha (hsub h)) fun h => hn (hsub h)
  · obtain ⟨-,-,-,hl⟩ := Text.trimEnd_eq_iff.mp (rfl : Text.trimEnd isWhiteSpace rest = _)
    intro c hc
    by_contra hb
    have hw := Tag.isWhiteSpace_of_isBlank (by simpa using hb)
    rw [hl c hc] at hw
    cases hw

theorem body_docClose_iff :
    Tag.body (rest ++ docClose) = Tag.body (Text.trimEnd isWhiteSpace rest) ↔ EndsLine rest := by
  by_cases hn : '\n' ∈ rest
  · obtain ⟨l,z,rfl,hl⟩ := List.eq_append_cons_of_mem hn
    have hla : '@' ∉ l := fun h => ha (by simp [h])
    rw [endsLine_append_iff hl,List.append_assoc,List.cons_append,Tag.body_append_lineFeed]
    by_cases hz : ∃ c ∈ z, isWhiteSpace c = false
    · have ht : Text.trimEnd isWhiteSpace (l ++ '\n' :: z) =
          l ++ '\n' :: Text.trimEnd isWhiteSpace z := by
        have hh := Text.trimEnd_append_of_exists hz (l ++ ['\n'])
        simpa using hh
      rw [ht,Tag.body_append_lineFeed]
      exact iff_of_true rfl (Or.inl hz)
    · have hw : ∀ c ∈ '\n' :: z, isWhiteSpace c = true := by
        simp only [not_exists,not_and,Bool.not_eq_false] at hz
        simpa using ⟨by decide,hz⟩
      have hbody : Tag.body l = Text.trimEnd Tag.isBlank l := by
        rw [Tag.body,List.takeWhile_eq_self_iff.mpr]
        simpa using Tag.isTerminator_of_notMem hla hl
      rw [Text.trimEnd_append_of_all hw,body_trimEnd hla hl,hbody,or_iff_right hz,eq_comm]
  · rw [body_append_docClose ha hn,body_trimEnd ha hn]
    refine iff_of_false (fun h => ?_) (not_endsLine hn)
    have hlen := (Text.trimEnd_prefix isWhiteSpace rest).length_le
    rw [← h,List.length_append,docClose_eq] at hlen
    simp only [List.length_cons,List.length_nil] at hlen
    omega

end

/-- A comment whose last tag, if it has any, ends before the line of the closing delimiter. -/
def Settled (x : Text) : Prop := ∀ y rest, x = y ++ '@' :: rest → '@' ∉ rest → EndsLine rest

theorem all_docText_iff {x : Text} : Tag.all (docText x) = Tag.all (stored x) ↔ Settled x := by
  have hlast {y rest : Text} (ha : '@' ∉ rest) :
      Tag.all (docText (y ++ '@' :: rest)) = Tag.all (stored (y ++ '@' :: rest)) ↔
        EndsLine rest := by
    rw [← body_docClose_iff ha,Tag.all,Tag.all,segments_docText ha,segments_stored ha,
      Tag.ofSegment_injective.list_map.eq_iff,List.append_cancel_left_eq,List.singleton_inj]
  constructor
  · rintro h y rest rfl ha
    exact (hlast ha).mp h
  · intro h
    by_cases hx : '@' ∈ x
    · obtain ⟨u,v,hr,hu⟩ := List.eq_append_cons_of_mem (List.mem_reverse.mpr hx)
      have hu' : '@' ∉ u.reverse := by simpa using hu
      have hx' : x = v.reverse ++ '@' :: u.reverse := by
        rw [← List.reverse_reverse x,hr]
        simp
      rw [hx']
      exact (hlast hu').mpr (h _ _ hx' hu')
    · have hd : '@' ∉ docText x := by simp [docText,docOpen,docClose_eq,hx]
      have hs : '@' ∉ stored x := by
        intro hm
        have hm := (Text.trimEnd_prefix _ _).subset hm
        simp [docOpen,hx] at hm
      rw [Tag.all_of_notMem hd,Tag.all_of_notMem hs]

theorem notInfix_of_mem_segments {x b : Text} (hx : ¬ docClose <:+: x)
    (hb : b ∈ Tag.segments (stored x)) : ¬ docClose <:+: b := by
  obtain ⟨rest,hr,rfl⟩ := List.mem_map.mp hb
  obtain ⟨before,hs⟩ := Tag.mem_afterAts.mp hr
  obtain ⟨after,hx'⟩ := Text.trimEnd_prefix isWhiteSpace (docOpen ++ x)
  have hrest : rest <:+: x := by
    change stored x ++ after = docOpen ++ x at hx'
    rw [hs,List.append_assoc] at hx'
    rcases List.append_eq_append_iff.mp hx' with ⟨u,ho,hu⟩ | ⟨u,-,rfl⟩
    · cases u with
      | nil => exact ⟨['@'],after,by simpa using hu⟩
      | cons c u =>
        obtain ⟨rfl,-⟩ := List.cons.inj hu
        exact absurd (ho ▸ by simp : '@' ∈ docOpen) (by decide)
    · exact ⟨u ++ ['@'],after,by simp⟩
  have hbody : Tag.body rest <+: rest :=
    (Text.trimEnd_prefix Tag.isBlank _).trans (List.takeWhile_prefix _)
  exact fun hd => hx (hd.trans (hbody.isInfix.trans hrest))

/-- A doc comment read with its delimiters, and read for the class below it. The tags are the same if
and only if the last one ends before the line of the closing delimiter, and then so is whatever is
asked. A tag in that line holds the delimiter when the comment is read with it, but never when it is
read for the class. -/
theorem readings_docText {x n : Text} (hx : ¬ docClose <:+: x) (hn : IsName n) :
    let raw := Reader.ofText (docText x)
    let indexed := Reader.ofText ((ofText (classUnder x n)).comment ⟨n,none⟩)
    (∀ b ∈ Tag.segments indexed.text, ¬ docClose <:+: b) ∧
    (Tag.all raw.text = Tag.all indexed.text ↔ Settled x) ∧
    (Settled x → raw.occurrences.1 = indexed.occurrences.1 ∧
      (∀ k, (raw.lookup k).1 = (indexed.lookup k).1 ∧
        (raw.parseAll.lookup k).1 = (indexed.parseAll.lookup k).1) ∧
      ∀ qs, Request.content ∉ qs → raw.answers qs = indexed.answers qs) ∧
    ∀ y rest, x = y ++ '@' :: rest → '@' ∉ rest → '\n' ∉ rest →
      (Tag.segments raw.text).getLast? = some (rest ++ docClose) ∧
        (Tag.segments indexed.text).getLast? = some (Text.trimEnd isWhiteSpace rest) := by
  intro raw indexed
  have hc : indexed = Reader.ofText (stored x) := by
    simp only [indexed,comment_classUnder hn hx]
  rw [hc]
  refine ⟨fun b => notInfix_of_mem_segments hx,all_docText_iff,fun h => ?_,?_⟩
  · have ha : Reader.Alike raw (Reader.ofText (stored x)) :=
      Reader.alike_ofText (all_docText_iff.mpr h)
    exact ⟨ha.parseAll.cache,fun k => ⟨(ha.lookup k).1,(ha.parseAll.lookup k).1⟩,
      fun qs hq => ha.answers hq⟩
  · rintro y rest rfl ha hl
    show (Tag.segments (docText _)).getLast? = _ ∧ (Tag.segments (stored _)).getLast? = _
    rw [segments_docText ha,segments_stored ha,List.getLast?_concat,List.getLast?_concat,
      body_append_docClose ha hl,body_trimEnd ha hl]
    exact ⟨rfl,rfl⟩

def severalLines : Text := "\n * @var int\n * Rows.\n ".toList

theorem readings_docText_severalLines :
    ¬ docClose <:+: severalLines ∧ Settled severalLines ∧
      ((Reader.ofText (docText severalLines)).lookup "var".toList).1 =
        some (.string "int".toList) ∧
      ((Reader.ofText ((ofText (classUnder severalLines ['A'])).comment ⟨['A'],none⟩)).lookup
        "var".toList).1 = some (.string "int".toList) := by
  have hx : ¬ docClose <:+: severalLines := Text.notInfix_iff_cut?.mpr (by decide)
  have hs : Settled severalLines := all_docText_iff.mp (by decide)
  have hraw : ((Reader.ofText (docText severalLines)).lookup "var".toList).1 =
      some (.string "int".toList) := rfl
  have hh := ((readings_docText hx isName_A).2.2.1 hs).2.1 "var".toList
  exact ⟨hx,hs,hraw,hh.1.symm.trans hraw⟩

def oneLine : Text := " @var int ".toList

theorem lookup_docText_oneLine :
    ¬ docClose <:+: oneLine ∧ oneLine.head? ≠ some '/' ∧ IsName ['A'] ∧
      ((Reader.ofText (docText oneLine)).lookup "var".toList).1 =
        some (.string "int */".toList) ∧
      ((Reader.ofText ((ofText (classUnder oneLine ['A'])).comment ⟨['A'],none⟩)).lookup
        "var".toList).1 = some (.string "int".toList) := by
  have hx : ¬ docClose <:+: oneLine := Text.notInfix_iff_cut?.mpr (by decide)
  refine ⟨hx,by decide,isName_A,rfl,?_⟩
  rw [comment_classUnder isName_A hx]
  rfl

end SourceIndex

end DocTags
