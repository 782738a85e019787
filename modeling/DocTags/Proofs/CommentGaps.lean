import DocTags.Proofs.ClosingDelimiter
import DocTags.Proofs.JoinedComments
import DocTags.Proofs.LineStops

/-! The text between a doc comment and the declaration that gets it. The comments of a text stand
behind each other, so the last one before a place is the nearest; and the lines between are loose, so
no landmark is among them. -/
namespace DocTags

namespace Text

open SourcePattern

def StartsBreak (v : Text) : Prop := ∀ c, v.head? = some c → c = '\n'

theorem StartsBreak.eq_nil_or {v : Text} (h : StartsBreak v) : v = [] ∨ ∃ w, v = '\n' :: w := by
  cases v with
  | nil => exact Or.inl rfl
  | cons c w => exact Or.inr ⟨w,by rw [h c rfl]⟩

theorem exists_of_mem_placed {i : Nat} {s : Text} {e : Nat × Text} (h : e ∈ placed i s.lines) :
    ∃ u v, s = u ++ (e.2 ++ v) ∧ e.1 = i+u.length ∧ EndsLines u ∧ StartsBreak v := by
  induction s using line_induction generalizing i with
  | last l hl =>
    rw [lines_of_notMem hl] at h
    obtain rfl := List.mem_singleton.mp h
    exact ⟨[],[],by simp,rfl,by simp [EndsLines],by simp [StartsBreak]⟩
  | line l t hl ih =>
    rw [lines_append_lineFeed hl] at h
    rcases List.mem_cons.mp h with rfl | h
    · exact ⟨[],'\n' :: t,rfl,rfl,by simp [EndsLines],by simp [StartsBreak]⟩
    · obtain ⟨u,v,rfl,he,hu,hv⟩ := ih h
      refine ⟨l ++ '\n' :: u,v,by simp,?_,?_,hv⟩
      · rw [he,List.length_append,List.length_cons]
        omega
      · intro c hc
        rw [List.getLast?_append_cons] at hc
        cases u with
        | nil => exact (Option.some.inj hc).symm
        | cons d u => exact hu c (by simpa using hc)

theorem mem_placed_iff {s : Text} {e : Nat × Text} : e ∈ placed 0 s.lines ↔
    '\n' ∉ e.2 ∧ ∃ u v, s = u ++ (e.2 ++ v) ∧ e.1 = u.length ∧ EndsLines u ∧ StartsBreak v := by
  constructor
  · intro h
    obtain ⟨u,v,hs,he,hu,hv⟩ := exists_of_mem_placed h
    exact ⟨notMem_of_mem_placed h,u,v,hs,by omega,hu,hv⟩
  · obtain ⟨i,l⟩ := e
    rintro ⟨hl,u,v,rfl,hi,hu,hv⟩
    simp only at hl hi
    have hlines : ∃ ls, (l ++ v).lines = l :: ls := by
      rcases hv.eq_nil_or with rfl | ⟨w,rfl⟩
      · exact ⟨[],by rw [List.append_nil,lines_of_notMem hl]⟩
      · exact ⟨lines w,lines_append_lineFeed hl w⟩
    obtain ⟨ls,hls⟩ := hlines
    rcases hu.eq_nil_or with rfl | ⟨w,rfl⟩
    · rw [List.nil_append,hls,hi]
      exact List.mem_cons_self
    · have hw : 0+w.length+1 = i := by simp [hi]
      rw [List.append_assoc,List.singleton_append,placed_lines_append,hls,hw]
      exact List.mem_append_right _ List.mem_cons_self

theorem mem_lines_of_endsLines {u l : Text} (hu : EndsLines u) (hl : '\n' ∉ l) (w : Text) :
    l ∈ (u ++ (l ++ '\n' :: w)).lines := by
  rcases hu.eq_nil_or with rfl | ⟨x,rfl⟩
  · rw [List.nil_append,lines_append_lineFeed hl]
    exact List.mem_cons_self
  · rw [List.append_assoc,List.singleton_append,lines_append,lines_append_lineFeed hl]
    exact List.mem_append_right _ List.mem_cons_self

theorem exists_take_of_placed_lt {s : Text} {d e : Nat × Text} (hd : d ∈ placed 0 s.lines)
    (he : e ∈ placed 0 s.lines) (h : d.1 < e.1) :
    ∃ u w, s.take e.1 = u ++ (d.2 ++ '\n' :: w) ∧ d.1 = u.length ∧ EndsLines u := by
  obtain ⟨hdl,u,v,hs,hu,hul,hv⟩ := mem_placed_iff.mp hd
  obtain ⟨-,u',v',hs',hu',hul',-⟩ := mem_placed_iff.mp he
  have htake : s.take e.1 = u' := by rw [hs',hu',List.take_left]
  obtain ⟨x,rfl⟩ : u <+: u' :=
    List.prefix_of_prefix_length_le ⟨d.2 ++ v,hs.symm⟩ ⟨e.2 ++ v',hs'.symm⟩ (by omega)
  have hx : d.2 ++ v = x ++ (e.2 ++ v') := by
    rw [hs,List.append_assoc,List.append_cancel_left_eq] at hs'
    exact hs'
  have hxl : EndsLines x := hul'.of_append
  have hxn : x ≠ [] := by
    rintro rfl
    simp only [List.append_nil] at hu'
    omega
  refine ⟨u,?_⟩
  rcases List.append_eq_append_iff.mp hx with ⟨y,rfl,hy⟩ | ⟨y,hy,-⟩
  · -- the line feed at the end of the part between is behind the line
    cases y with
    | nil =>
      obtain ⟨z,hz⟩ := (hxl.eq_nil_or).resolve_left hxn
      rw [List.append_nil] at hz
      exact absurd (hz ▸ by simp) hdl
    | cons c y =>
      obtain rfl : c = '\n' := hv c (by rw [hy]; rfl)
      exact ⟨y,htake,hu,hul⟩
  · obtain ⟨z,hz⟩ := (hxl.eq_nil_or).resolve_left hxn
    exact absurd (by rw [hy,hz]; simp) hdl

/-- What stands between a place and a later line has among its lines all that start there. -/
theorem mem_lines_between {s : Text} {d e : Nat × Text} (hd : d ∈ placed 0 s.lines)
    (he : e ∈ placed 0 s.lines) (h : d.1 < e.1) {k : Nat} (hk : k ≤ d.1) :
    d.2 ∈ lines ((s.take e.1).drop k) := by
  obtain ⟨u,w,hs,hu,hul⟩ := exists_take_of_placed_lt hd he h
  have hdrop : EndsLines (u.drop k) := by
    rw [← List.take_append_drop k u] at hul
    exact hul.of_append
  rw [hs,List.drop_append_of_le_length (by omega)]
  exact mem_lines_of_endsLines hdrop (notMem_of_mem_placed hd) w

end Text

namespace SourcePattern

theorem bounds_of_mem_docSpans {i : Nat} {s : Text} {m : Match Text} (h : m ∈ docSpans i s) :
    i ≤ m.start ∧ m.start < m.stop := by
  rw [docSpans_length] at h
  obtain ⟨n,hn,rfl⟩ := List.mem_map.mp h
  obtain ⟨a,t,-,hstart,hstop⟩ := slice_of_mem_docSpans hn
  have ho : 0 < (docOpen ++ (n.found ++ docClose)).length := by simp [docOpen]
  rw [List.length_append] at hstop
  simp only [Match.shift]
  omega

theorem pairwise_docSpans (i : Nat) (s : Text) :
    (docSpans i s).Pairwise fun a b => a.stop ≤ b.start := by
  induction hn : s.length using Nat.strongRecOn generalizing i s with
  | ind n ih =>
    cases hc : cutComment? s with
    | none =>
      rw [docSpans_of_none hc]
      exact List.Pairwise.nil
    | some p =>
      obtain ⟨a,b,t⟩ := p
      rw [docSpans_of_some hc]
      refine List.Pairwise.cons (fun m hm => ?_) (ih t.length (hn ▸ length_lt_of_cutComment? hc) _ t rfl)
      exact (bounds_of_mem_docSpans hm).1

/-- The last comment that ends at or before a place. -/
theorem find?_docSpans_eq_some_iff {s : Text} {i : Nat} {m : Match Text} :
    ((docSpans 0 s).reverse.find? fun m => m.stop ≤ i) = some m ↔
      m ∈ docSpans 0 s ∧ m.stop ≤ i ∧ ∀ n ∈ docSpans 0 s, n.stop ≤ i → n.stop ≤ m.stop := by
  have hp : (docSpans 0 s).Pairwise fun a b => a.stop < b.stop := by
    refine (pairwise_docSpans 0 s).imp_of_mem fun _ hb hab => ?_
    have hh := (bounds_of_mem_docSpans hb).2
    omega
  constructor
  · intro h
    obtain ⟨hm,as,bs,hl,has⟩ := List.find?_eq_some_iff_append.mp h
    have hs : docSpans 0 s = bs.reverse ++ m :: as.reverse := by
      rw [← List.reverse_reverse (docSpans 0 s),hl]
      simp
    refine ⟨by rw [hs]; simp,of_decide_eq_true hm,fun n hn hni => ?_⟩
    rw [hs] at hn hp
    rcases List.mem_append.mp hn with hn | hn
    · exact Nat.le_of_lt ((List.pairwise_append.mp hp).2.2 n hn m List.mem_cons_self)
    · rcases List.mem_cons.mp hn with rfl | hn
      · exact Nat.le_refl _
      · have hh := has n (List.mem_reverse.mp hn)
        simp [hni] at hh
  · rintro ⟨hm,hi,hlast⟩
    obtain ⟨as,bs,hs⟩ := List.append_of_mem hm
    rw [hs] at hp
    have hbs : ∀ n ∈ bs.reverse, (!decide (n.stop ≤ i)) = true := by
      intro n hn
      have hn := List.mem_reverse.mp hn
      have hmn := List.rel_of_pairwise_cons (List.pairwise_append.mp hp).2.1 hn
      have hle := hlast n (by rw [hs]; simp [hn])
      simp only [Bool.not_eq_true',decide_eq_false_iff_not]
      omega
    exact List.find?_eq_some_iff_append.mpr ⟨decide_eq_true hi,bs.reverse,as.reverse,by simp [hs],hbs⟩

end SourcePattern

namespace SourceIndex

open SourcePattern LineScan

theorem isLooseLine_iff {l : Text} :
    isLooseLine l = true ↔ l.trim = [] ∨ "#[".toList <+: l.trim := by
  unfold isLooseLine
  split
  · rename_i h
    simp [h]
  · rename_i h
    rw [or_iff_right h,List.isPrefixOf_iff_prefix]

theorem isWhiteSpace_of_isGap {c : Char} (h : isGap c = true) : isWhiteSpace c = true := by
  simp only [isGap,Bool.or_eq_true,decide_eq_true_eq] at h
  rcases h with rfl | rfl <;> rfl

def between (s : Text) (m : Match Text) (i : Nat) : Text := (s.take i).drop m.stop

/-- A comment is attached to a place if it is the last one that ends before it, and the lines between
are blank or start like attributes. -/
theorem attached?_eq_some_iff {s : Text} {i : Nat} {m : Match Text} :
    attached? s (findAll docComment s) i = some m ↔
      m ∈ findAll docComment s ∧ m.stop ≤ i ∧
        (∀ n ∈ findAll docComment s, n.stop ≤ i → n.stop ≤ m.stop) ∧
        ∀ l ∈ (between s m i).lines, l.trim = [] ∨ "#[".toList <+: l.trim := by
  have hloose (n : Match Text) : ((between s n i).lines.all isLooseLine = true) ↔
      ∀ l ∈ (between s n i).lines, l.trim = [] ∨ "#[".toList <+: l.trim := by
    simp only [List.all_eq_true,isLooseLine_iff]
  rw [attached?,findAll_docComment,Option.bind_eq_bind,Option.bind_eq_some_iff]
  constructor
  · rintro ⟨n,hn,h⟩
    split at h
    · rename_i hg
      obtain rfl := Option.some.inj h
      obtain ⟨hm,hi,hlast⟩ := find?_docSpans_eq_some_iff.mp hn
      exact ⟨hm,hi,hlast,(hloose n).mp hg⟩
    · cases h
  · rintro ⟨hm,hi,hlast,hg⟩
    exact ⟨m,find?_docSpans_eq_some_iff.mpr ⟨hm,hi,hlast⟩,if_pos ((hloose m).mpr hg)⟩

theorem trim_append_cons {b : Text} (hb : Blanks b) {c : Char} (hc : isWhiteSpace c = false)
    (t : Text) : Text.trim (b ++ c :: t) = c :: Text.trimEnd isWhiteSpace t := by
  have hd : (b ++ c :: t).dropWhile isWhiteSpace = c :: t := by
    refine Text.dropWhile_append_eq (fun d hd => isWhiteSpace_of_isGap (hb d hd)) fun d hd => ?_
    exact Option.some.inj hd ▸ hc
  rw [Text.trim,hd]
  exact Text.trimEnd_append_cons hc [] t

theorem docAbove_of_attached? {s : Text} {i : Nat} {m : Match Text}
    (h : attached? s (findAll docComment s) i = some m) : docAbove s i = stored m.found := by
  rw [← commentAt_eq_docAbove,commentAt,h]

theorem exists_attached?_of_docAbove {s : Text} {i : Nat} (h : docAbove s i ≠ []) :
    ∃ m, attached? s (findAll docComment s) i = some m := by
  rw [← commentAt_eq_docAbove,commentAt] at h
  cases hm : attached? s (findAll docComment s) i with
  | none =>
    rw [hm] at h
    exact absurd rfl h
  | some m => exact ⟨m,rfl⟩

/-- What a loose line starts with behind its blanks stops a declaration: it is white space of another
kind or a number sign. -/
theorem isStop_of_isLooseLine {b t : Text} {c : Char} (hb : Blanks b) (hg : isGap c = false)
    (hn : c ≠ '\n') (h : isLooseLine (b ++ c :: t) = true) : isStop c = true := by
  have hkind : isWhiteSpace c = true ∨ c = '#' := by
    by_cases hw : isWhiteSpace c = true
    · exact Or.inl hw
    · rw [isLooseLine_iff,trim_append_cons hb (Bool.not_eq_true _ ▸ hw)] at h
      obtain ⟨r,hr⟩ := h.resolve_left (List.cons_ne_nil _ _)
      exact Or.inr (List.cons.inj hr).1.symm
  rcases hkind with hw | rfl
  · have hname : isNameChar c = false := by
      by_contra hc
      rw [isWhiteSpace_of_isNameChar (by simpa using hc)] at hw
      cases hw
    have hamp : c ≠ '&' := by
      rintro rfl
      exact absurd hw (by decide)
    have hbrace : c ≠ '\x7d' := by
      rintro rfl
      exact absurd hw (by decide)
    simp [isStop,hg,hname,hamp,hbrace,hn]
  · decide

theorem landmark?_of_isLooseLine {l : Text} (hl : '\n' ∉ l) (h : isLooseLine l = true) :
    landmark? l = none := by
  refine landmark?_of_stop hl fun c t hg => ?_
  obtain ⟨b,hs,hb⟩ := exists_blanks l
  have hc : isGap c = false := flush_skipGap l c (by rw [hg]; rfl)
  rw [hs,hg] at hl h
  exact isStop_of_isLooseLine hb hc (by rintro rfl; simp at hl) h

theorem mem_landmarks_iff {s : Text} {a : Nat × Landmark} :
    a ∈ landmarks s ↔ ∃ e ∈ Text.placed 0 s.lines, e.1 = a.1 ∧ landmark? e.2 = some a.2 := by
  rw [landmarks_eq,lineLandmarks,List.mem_filterMap]
  constructor
  · rintro ⟨e,he,h⟩
    obtain ⟨l,hl,rfl⟩ := Option.map_eq_some_iff.mp h
    exact ⟨e,he,rfl,hl⟩
  · rintro ⟨e,he,hi,hl⟩
    exact ⟨e,he,by rw [hl,Option.map_some,hi]⟩

/-- No landmark stands between a comment and the landmark that it is attached to. -/
theorem le_of_attached? {s : Text} {a b : Nat × Landmark} (ha : a ∈ landmarks s)
    (hb : b ∈ landmarks s) {m : Match Text}
    (h : attached? s (findAll docComment s) b.1 = some m) (hm : m.stop ≤ a.1) : b.1 ≤ a.1 := by
  by_contra hlt
  obtain ⟨d,hd,hda,hl⟩ := mem_landmarks_iff.mp ha
  obtain ⟨e,he,heb,-⟩ := mem_landmarks_iff.mp hb
  have hmem : d.2 ∈ (between s m b.1).lines := by
    rw [between,← heb]
    exact Text.mem_lines_between hd he (by omega) (by omega)
  have hloose := isLooseLine_iff.mpr ((attached?_eq_some_iff.mp h).2.2.2 d.2 hmem)
  rw [landmark?_of_isLooseLine (Text.notMem_of_mem_placed hd) hloose] at hl
  cases hl

end SourceIndex
end DocTags
