import DocTags.Proofs.LineAutomaton
import DocTags.Proofs.LineEndings
import DocTags.Proofs.LineStops

/-! The index of a source does not depend on its line ends. A carriage return at the end of a line
changes nothing that the line declares; comments and places are those of the text with line feeds
alone, moved by the carriage returns before them. -/
namespace DocTags

open Text (crlf)

namespace SourcePattern

/-- Comments that stand at the same place of a text without and with carriage returns. -/
structure SameComment (s : Text) (m m' : Match Text) : Prop where
  stop : ∃ u, u <+: s ∧ m.stop = u.length ∧ m'.stop = (crlf u).length
  found : m'.found = crlf m.found

theorem cutComment?_crlf (s : Text) : cutComment? (crlf s) =
    (cutComment? s).map fun p => (crlf p.1,crlf p.2.1,crlf p.2.2) := by
  have hc := Text.cut?_crlf (show '\r' ∉ docClose by decide) (by decide) (by decide)
  rw [cutComment?,cutComment?,Text.cut?_crlf (by decide) (by decide) (by decide)]
  cases Text.cut? docOpen s with
  | none => rfl
  | some p =>
    simp only [Option.map_some,Option.bind_some,hc]
    cases Text.cut? docClose p.2 <;> rfl

theorem forall₂_docSpans {pre s whole : Text} (h : pre ++ s = whole) :
    List.Forall₂ (SameComment whole) (docSpans pre.length s)
      (docSpans (crlf pre).length (crlf s)) := by
  induction hn : s.length using Nat.strongRecOn generalizing pre s with
  | ind n ih =>
    have hcut := cutComment?_crlf s
    cases hc : cutComment? s with
    | none =>
      rw [hc] at hcut
      rw [docSpans_of_none hc,docSpans_of_none hcut]
      exact .nil
    | some q =>
      obtain ⟨a,b,t⟩ := q
      rw [hc] at hcut
      have heq := eq_append_of_cutComment? hc
      have hl := length_lt_of_cutComment? hc
      rw [docSpans_of_some hc,docSpans_of_some hcut]
      have hu : pre.length+a.length+(docOpen ++ (b ++ docClose)).length =
          (pre ++ a ++ (docOpen ++ (b ++ docClose))).length := by
        simp only [List.length_append]
      have ho : crlf docOpen = docOpen := Text.crlf_of_notMem (by decide)
      have hd : crlf docClose = docClose := Text.crlf_of_notMem (by decide)
      have hu' : (crlf pre).length+(crlf a).length+(docOpen ++ (crlf b ++ docClose)).length =
          (crlf (pre ++ a ++ (docOpen ++ (b ++ docClose)))).length := by
        simp only [Text.crlf_append,ho,hd,List.length_append]
      have hw : pre ++ a ++ (docOpen ++ (b ++ docClose)) ++ t = whole := by
        rw [← h,heq]
        simp only [List.append_assoc]
      have ht := ih t.length (hn ▸ hl) hw rfl
      rw [hu,hu']
      exact .cons ⟨⟨_,⟨t,hw⟩,rfl,rfl⟩,rfl⟩ ht

end SourcePattern

namespace LineScan

open SourcePattern SourceIndex

theorem map_declarations_crlf {c c' : Nat → Text} {whole : Text}
    (hc : ∀ u, u <+: whole → c' (crlf u).length = crlf (c u.length)) {pre s : Text}
    (h : pre ++ s = whole) (o : Option Text) :
    (declarations o (Text.placed (crlf pre).length (crlf s).lines)).map (fun d => (d.2,c' d.1)) =
      (declarations o (Text.placed pre.length s.lines)).map fun d => (d.2,crlf (c d.1)) := by
  have hp := hc pre ⟨s,h⟩
  induction s using Text.line_induction generalizing pre o with
  | last l hl =>
    rw [Text.crlf_of_notMem hl,Text.lines_of_notMem hl]
    simp only [Text.placed,declarations]
    cases declared? o l with
    | none => rfl
    | some r => simp only [List.map_cons,List.map_nil,hp]
  | line l t hl ih =>
    -- the line means the same, and the next one starts where its own line feed ends
    have hl' : '\n' ∉ l ++ ['\r'] := by simp [hl]
    have hm : landmark? (l ++ ['\r']) = landmark? l := landmark?_append_stop (by decide) hl (by simp)
    have hd : declared? o (l ++ ['\r']) = declared? o l := by simp only [declared?,hm]
    have ha : openAfter o (l ++ ['\r']) = openAfter o l := by simp only [openAfter,hm]
    have hi : pre.length+l.length+1 = (pre ++ (l ++ ['\n'])).length := by
      simp only [List.length_append,List.length_singleton]
      omega
    have hi' : (crlf pre).length+(l ++ ['\r']).length+1 = (crlf (pre ++ (l ++ ['\n']))).length := by
      rw [Text.crlf_append,Text.crlf_append,Text.crlf_of_notMem hl,Text.crlf_lineFeed]
      simp only [List.length_append,List.length_cons,Text.crlf_nil]
      omega
    have hw : pre ++ (l ++ ['\n']) ++ t = whole := by
      rw [← h]
      simp
    have hh := ih hw (openAfter o l) (hc _ ⟨t,hw⟩)
    rw [Text.crlf_line hl,Text.lines_append_lineFeed hl,Text.lines_append_lineFeed hl']
    simp only [Text.placed,declarations,hd,ha,hi,hi']
    cases declared? o l with
    | none => exact hh
    | some r => simp only [List.map_cons,hp,hh]

end LineScan

namespace SourceIndex

open SourcePattern LineScan

theorem isLooseLine_append_return (l : Text) : isLooseLine (l ++ ['\r']) = isLooseLine l := by
  rw [isLooseLine,isLooseLine,Text.trim_append_return]

theorem stored_crlf (interior : Text) : stored (crlf interior) = crlf (stored interior) := by
  have ho : crlf docOpen = docOpen := Text.crlf_of_notMem (by decide)
  rw [stored,stored,← Text.trimEnd_crlf (by decide) (by decide),Text.crlf_append,ho]

theorem find?_of_forall₂ {α β : Type} {R : α → β → Prop} {p : α → Bool} {q : β → Bool} {as : List α}
    {bs : List β} (h : List.Forall₂ R as bs) (hp : ∀ a b, R a b → p a = q b) :
    (as.find? p = none ∧ bs.find? q = none) ∨
      ∃ a b, as.find? p = some a ∧ bs.find? q = some b ∧ R a b := by
  induction h with
  | nil => exact Or.inl ⟨rfl,rfl⟩
  | @cons a b as bs hr h ih =>
    simp only [List.find?_cons,hp a b hr]
    cases q b with
    | true => exact Or.inr ⟨a,b,rfl,rfl,hr⟩
    | false => exact ih

theorem docAbove_crlf {s u : Text} (hu : u <+: s) :
    docAbove (crlf s) (crlf u).length = crlf (docAbove s u.length) := by
  have hs : List.Forall₂ (SameComment s) (docSpans 0 s).reverse (docSpans 0 (crlf s)).reverse :=
    List.forall₂_reverse_iff.mpr (forall₂_docSpans (List.nil_append s))
  have hp : ∀ m m', SameComment s m m' →
      decide (m.stop ≤ u.length) = decide (m'.stop ≤ (crlf u).length) := by
    intro m m' hm
    obtain ⟨w,hw,h,h'⟩ := hm.stop
    rw [h,h',decide_eq_decide,Text.length_crlf_le_iff hw hu]
  rw [docAbove_eq_stored,docAbove_eq_stored]
  rcases find?_of_forall₂ hs hp with ⟨hf,hf'⟩ | ⟨m,m',hf,hf',hm⟩
  · simp [hf,hf']
  · obtain ⟨w,hw,h,h'⟩ := hm.stop
    have hl : m.stop ≤ u.length := by simpa using List.find?_some hf
    obtain ⟨g,rfl⟩ := List.prefix_of_prefix_length_le hw hu (h ▸ hl)
    obtain ⟨v,rfl⟩ := hu
    have hg : ((w ++ g ++ v).take (w ++ g).length).drop w.length = g := by
      rw [List.take_left,List.drop_left]
    have hg' : ((crlf (w ++ g ++ v)).take (crlf (w ++ g)).length).drop (crlf w).length = crlf g := by
      rw [Text.crlf_append _ v,List.take_left,Text.crlf_append,List.drop_left]
    simp only [hf,hf',h,h',hg,hg',Text.all_lines_crlf isLooseLine_append_return]
    cases (Text.lines g).all isLooseLine with
    | true => simp only [if_true,hm.found,stored_crlf]
    | false => rfl

/-- The entries of a source with carriage returns are those of the source without them: the comments
have carriage returns too. -/
theorem entries_crlf (s : Text) :
    (ofText (crlf s)).entries = (ofText s).entries.map fun e => (e.1,crlf e.2) := by
  have hc : ∀ u, u <+: s → docAbove (crlf s) (crlf u).length = crlf (docAbove s u.length) :=
    fun u hu => docAbove_crlf hu
  have hd := map_declarations_crlf hc (List.nil_append s) none
  rw [entries_ofText,entries_ofText,← KeyedList.ofPairs_map_snd,List.map_map]
  exact congrArg KeyedList.ofPairs hd

theorem references_crlf (s : Text) : (ofText (crlf s)).references = (ofText s).references := by
  rw [references,references,entries_crlf,KeyedList.keys,List.map_map]
  rfl

theorem comment_crlf (s : Text) (r : Reference) :
    (ofText (crlf s)).comment r = crlf ((ofText s).comment r) := by
  rw [comment,comment,entries_crlf,KeyedList.lookup_map_snd]
  cases (ofText s).entries.lookup r <;> rfl

end SourceIndex
end DocTags
