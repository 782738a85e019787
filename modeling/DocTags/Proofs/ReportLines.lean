import DocTags.Proofs.DecodedTexts
import DocTags.Proofs.PlainReport

/-! The lines of the plain report of a comment. Keys never break a line and values do only if they are
texts with a line feed, which a comment can write as an escape in a quoted text. Each such line feed
makes a line more, and what stands behind it may look like another tag. -/
namespace DocTags

namespace Text

theorem length_lines (s : Text) : s.lines.length = s.count '\n'+1 := by
  induction s using line_induction with
  | last l hl => rw [lines_of_notMem hl,List.count_eq_zero.mpr hl,List.length_singleton]
  | line l t hl ih =>
    rw [lines_append_lineFeed hl,List.length_cons,ih,List.count_append,List.count_cons_self,
      List.count_eq_zero.mpr hl]
    omega

end Text

namespace Tag

theorem raw_of_mem_all {s k raw : Text} (h : .valued k raw ∈ all s) :
    '\n' ∉ raw ∧ ∀ c ∈ raw, c ∈ s := by
  obtain ⟨i,b,hb,hd⟩ := standsAt_of_mem h
  cases hd with
  | valued =>
    obtain ⟨blanks,after,hs,-,-⟩ := hb.cut
    refine ⟨fun hn => ?_,fun c hc => ?_⟩
    · have ht := hb.inside '\n' (by simp [hn])
      cases ht
    · refine List.mem_of_mem_drop (i := i+1) ?_
      rw [hs]
      simp [hc]

end Tag

namespace Annotations

theorem length_pairs (es : Annotations) : (pairs es).length = total es := by
  simp [pairs,total,List.length_flatMap]

theorem exists_tag_of_mem_pairs {s : Text} {p : Text × Value} (h : p ∈ pairs (ofText s)) :
    ∃ t ∈ Tag.all s, entryOf t = p := by
  obtain ⟨e,he,hp⟩ := List.mem_flatMap.mp h
  obtain ⟨v,hv,rfl⟩ := List.mem_map.mp hp
  exact exists_tag_of_value he hv

theorem lineFeed_notMem_of_mem_pairs {s : Text} {p : Text × Value} (h : p ∈ pairs (ofText s)) :
    '\n' ∉ p.1 := by
  obtain ⟨t,ht,rfl⟩ := exists_tag_of_mem_pairs h
  obtain ⟨i,hi⟩ := Tag.standsAt_of_mem ht
  intro hn
  have hh := (entryOf_key_clean hi).1 '\n' hn
  cases hh

theorem exists_valued_of_string {t : Tag} {k s : Text} (h : entryOf t = (k,.string s)) :
    ∃ raw, t = .valued k raw ∧ Value.ofText raw = .string s := by
  cases t with
  | valued key raw =>
    obtain ⟨rfl,hv⟩ := Prod.mk.inj h
    exact ⟨raw,rfl,hv⟩
  | bare key => cases h
  | malformed segment => cases h

end Annotations

namespace Reading

/-- Texts are printed as they are; any other value is printed in one line. -/
theorem lineFeed_mem_plain_iff {v : Value} : '\n' ∈ plain v ↔ ∃ s, v = .string s ∧ '\n' ∈ s := by
  cases v with
  | string s => simp [plain]
  | _ => simpa [plain] using Value.lineFeed_notMem_compact _

theorem count_tagBody (k : Text) (v : Value) :
    (tagBody k v).count '\n' = k.count '\n'+(plain v).count '\n' := by
  unfold tagBody
  split
  · have hp : (plain (.bool true)).count '\n' = 0 := by decide
    rw [hp,Nat.add_zero]
  · rw [List.count_append,List.count_cons_of_ne (by decide)]

theorem lines_tagLine {k : Text} {v : Value} (h : '\n' ∉ tagBody k v) (rest : Text) :
    (tagLine k v ++ rest).lines = (' ' :: ' ' :: '@' :: tagBody k v) :: rest.lines := by
  have hl : tagLine k v ++ rest = (' ' :: ' ' :: '@' :: tagBody k v) ++ '\n' :: rest := by
    simp [tagLine_eq,plainLine]
  have hn : '\n' ∉ ' ' :: ' ' :: '@' :: tagBody k v := by simp [h]
  rw [hl,Text.lines_append_lineFeed hn]

theorem lines_tagLines {ps : List (Text × Value)} (h : ∀ p ∈ ps, '\n' ∉ tagBody p.1 p.2) :
    Text.lines (ps.flatMap fun p => tagLine p.1 p.2) =
      ps.map (fun p => ' ' :: ' ' :: '@' :: tagBody p.1 p.2) ++ [[]] := by
  induction ps with
  | nil => rfl
  | cons p ps ih =>
    rw [List.flatMap_cons,lines_tagLine (h p (by simp)),ih fun p hp => h p (by simp [hp])]
    rfl

theorem count_tagLines {ps : List (Text × Value)} (h : ∀ p ∈ ps, '\n' ∉ p.1) :
    (ps.flatMap fun p => tagLine p.1 p.2).count '\n' =
      ps.length+(ps.map fun p => (plain p.2).count '\n').sum := by
  induction ps with
  | nil => rfl
  | cons p ps ih =>
    have hh := ih fun p hp => h p (by simp [hp])
    have hl : (tagLine p.1 p.2).count '\n' = (plain p.2).count '\n'+1 := by
      simp [tagLine_eq,plainLine,count_tagBody,List.count_eq_zero.mpr (h p (by simp))]
    rw [List.flatMap_cons,List.count_append,hh,hl,List.length_cons,List.map_cons,List.sum_cons]
    omega

end Reading

namespace Report

/-- A report of a header line and of one line for each occurrence, which starts with two spaces, an at
sign and the key. The last line feed leaves an empty piece. -/
def OneLineEach (target : Text) (ps : List (Text × Value)) (report : Text) : Prop :=
  ∃ ls, report.lines = target :: (ls ++ [[]]) ∧
    List.Forall₂ (fun p l => ' ' :: ' ' :: '@' :: p.1 <+: l) ps ls

theorem length_of_oneLineEach {target report : Text} {ps : List (Text × Value)}
    (h : OneLineEach target ps report) : report.lines.length = ps.length+2 := by
  obtain ⟨ls,hl,hf⟩ := h
  rw [hl,hf.length_eq]
  simp

section

variable {target : Text} (ht : '\n' ∉ target) {es : Annotations}
  (hk : ∀ p ∈ Annotations.pairs es, '\n' ∉ p.1)
include ht hk

theorem length_lines_plain : (plain [⟨none,target,.parameters es⟩]).lines.length =
    (Annotations.pairs es).length+
      ((Annotations.pairs es).map fun p => (Reading.plain p.2).count '\n').sum+2 := by
  rw [plain_parameters,Text.lines_append_lineFeed ht,List.length_cons,Text.length_lines,
    Reading.count_tagLines hk]

theorem oneLineEach_plain_iff :
    OneLineEach target (Annotations.pairs es) (plain [⟨none,target,.parameters es⟩]) ↔
      ∀ p ∈ Annotations.pairs es, ∀ s, p.2 = .string s → '\n' ∉ s := by
  constructor
  · intro h p hp s hs hn
    have hl := length_of_oneLineEach h
    rw [length_lines_plain ht hk] at hl
    have hz : ((Annotations.pairs es).map fun p => (Reading.plain p.2).count '\n').sum = 0 := by
      omega
    have hc := List.sum_eq_zero_iff_forall_eq_nat.mp hz _ (List.mem_map.mpr ⟨p,hp,rfl⟩)
    exact List.count_eq_zero.mp hc (Reading.lineFeed_mem_plain_iff.mpr ⟨s,hs,hn⟩)
  · intro h
    have hb : ∀ p ∈ Annotations.pairs es, '\n' ∉ Reading.tagBody p.1 p.2 := by
      intro p hp
      have hv : '\n' ∉ Reading.plain p.2 := by
        intro hm
        obtain ⟨s,hs,hn⟩ := Reading.lineFeed_mem_plain_iff.mp hm
        exact h p hp s hs hn
      rw [← List.count_eq_zero,Reading.count_tagBody,List.count_eq_zero.mpr (hk p hp),
        List.count_eq_zero.mpr hv]
    refine ⟨(Annotations.pairs es).map fun p => ' ' :: ' ' :: '@' :: Reading.tagBody p.1 p.2,?_,?_⟩
    · rw [plain_parameters,Text.lines_append_lineFeed ht,Reading.lines_tagLines hb]
    · rw [List.forall₂_map_right_iff,List.forall₂_same]
      intro p _
      simp only [List.cons_prefix_cons,true_and]
      unfold Reading.tagBody
      split
      · exact List.prefix_rfl
      · exact List.prefix_append _ _

end

/-- The plain report of a comment has its header line and one line for each at sign of the comment, with
the key of the occurrence, exactly if no value is a text with a line feed; each line feed in a value
makes a line more. Such a value comes from a tag whose raw text has an escape, so a comment without
backslashes has one line for each at sign. -/
theorem plain_oneLineEach_iff (s : Text) {target : Text} (ht : '\n' ∉ target) :
    let es := (Reader.ofText s).occurrences.1
    let ps := Annotations.pairs es
    let report := write .plain [⟨none,target,.parameters es⟩]
    ps.length = s.count '@' ∧
    (OneLineEach target ps report ↔ ∀ p ∈ ps, ∀ t, p.2 = .string t → '\n' ∉ t) ∧
    report.lines.length =
      s.count '@'+(ps.map fun p => (Reading.plain p.2).count '\n').sum+2 ∧
    (∀ p ∈ ps, ∀ t, p.2 = .string t → '\n' ∈ t →
      ∃ raw, .valued p.1 raw ∈ Tag.all s ∧ Value.ofText raw = .string t ∧ '\\' ∈ raw) ∧
    ('\\' ∉ s → OneLineEach target ps report) := by
  intro es ps report
  have hk : ∀ p ∈ ps, '\n' ∉ p.1 := fun p hp => Annotations.lineFeed_notMem_of_mem_pairs hp
  have hlength : ps.length = s.count '@' :=
    (Annotations.length_pairs es).trans (Annotations.total_ofText s)
  have hiff := oneLineEach_plain_iff ht hk
  have hescape : ∀ p ∈ ps, ∀ t, p.2 = .string t → '\n' ∈ t →
      ∃ raw, .valued p.1 raw ∈ Tag.all s ∧ Value.ofText raw = .string t ∧ '\\' ∈ raw := by
    intro p hp t hpt hn
    obtain ⟨tag,htag,he⟩ := Annotations.exists_tag_of_mem_pairs hp
    obtain ⟨raw,rfl,hv⟩ := Annotations.exists_valued_of_string (he.trans (Prod.ext rfl hpt))
    exact ⟨raw,htag,hv,Value.backslash_mem_of_ofText hv (Tag.raw_of_mem_all htag).1 hn⟩
  refine ⟨hlength,hiff,hlength ▸ length_lines_plain ht hk,hescape,fun hs => hiff.mpr ?_⟩
  intro p hp t hpt hn
  obtain ⟨raw,hm,-,hb⟩ := hescape p hp t hpt hn
  exact hs ((Tag.raw_of_mem_all hm).2 _ hb)

theorem plain_oneLineEach_unescaped :
    let s := "@a \"x\\ny\" @b [\"u\\nv\"]\n@c z".toList
    let s' := "@a \"x y\" @b [\"u v\"]\n@c z".toList
    let target := "A::f".toList
    let report (s : Text) := write .plain [⟨none,target,.parameters (Reader.ofText s).occurrences.1⟩]
    '\n' ∉ target ∧ (report s).lines.length = 6 ∧
      (['a'],.string "x\ny".toList) ∈ Annotations.pairs (Reader.ofText s).occurrences.1 ∧
      (∃ raw, .valued ['a'] raw ∈ Tag.all s ∧ Value.ofText raw = .string "x\ny".toList ∧
        '\\' ∈ raw) ∧
      '\\' ∉ s' ∧
      OneLineEach target (Annotations.pairs (Reader.ofText s').occurrences.1) (report s') := by
  intro s s' target report
  have ht : '\n' ∉ target := by decide
  have hs' : '\\' ∉ s' := by decide
  have hes : (Reader.ofText s).occurrences.1 = [(['a'],[.string "x\ny".toList]),
      (['b'],[.list [.string "u\nv".toList]]),(['c'],[.string ['z']])] := rfl
  have hm : (['a'],.string "x\ny".toList) ∈ Annotations.pairs (Reader.ofText s).occurrences.1 := by
    rw [hes]
    exact List.mem_cons_self
  obtain ⟨-,-,hl,hescape,-⟩ := plain_oneLineEach_iff s ht
  have hsix : (report s).lines.length = 6 := by
    rw [hl,hes]
    rfl
  exact ⟨ht,hsix,hm,hescape _ hm _ rfl (by decide),hs',(plain_oneLineEach_iff s' ht).2.2.2.2 hs'⟩

/-- A value that forges a line: the report of a comment with one tag is that of a comment with two. -/
theorem plain_forged_tagLine :
    let s := "@a \"x\\n  \\u0040b y\"".toList
    let es := (Reader.ofText s).occurrences.1
    let forged := (Reader.ofText "@a x @b y".toList).occurrences.1
    let report := write .plain [⟨none,['-'],.parameters es⟩]
    s.count '@' = 1 ∧ report = "-\n  @a x\n  @b y\n".toList ∧
      report = write .plain [⟨none,['-'],.parameters forged⟩] ∧
      ¬ OneLineEach ['-'] (Annotations.pairs es) report := by
  intro s es forged report
  have hr : report = "-\n  @a x\n  @b y\n".toList := by decide +kernel
  have hf : write .plain [⟨none,['-'],.parameters forged⟩] = "-\n  @a x\n  @b y\n".toList := by
    decide +kernel
  have hp : (Annotations.pairs es).length = 1 := by decide +kernel
  refine ⟨by decide,hr,hr.trans hf.symm,fun h => ?_⟩
  have hl := length_of_oneLineEach h
  rw [hr,hp] at hl
  exact absurd hl (by decide)

end Report
end DocTags
