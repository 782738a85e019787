import DocTags.Proofs.LineEndingIndex
import DocTags.Proofs.LookupPaths

/-! A source reads the same with either kind of line ends. Comments with carriage returns have the same
tags, and readers of texts with the same tags cannot be told apart by what they are asked, unless they
are asked for the text itself. -/
namespace DocTags

open Text (crlf)

namespace Tag

theorem body_append_return (rest : Text) : body (rest ++ ['\r']) = body rest := by
  have hr : isBlank '\r' = true := by decide
  simp only [body,List.takeWhile_append]
  split
  · rename_i h
    have hw := (List.takeWhile_prefix _).eq_of_length h
    show Text.trimEnd isBlank (rest ++ ['\r']) = _
    rw [Text.trimEnd_append_singleton,hr,if_pos rfl,hw]
  · rfl

theorem all_append_return (l : Text) : all (l ++ ['\r']) = all l := by
  have hr : afterAts ['\r'] = [] := rfl
  simp [all,segments,afterAts_append,hr,body_append_return,Function.comp_def]

theorem all_crlf (s : Text) : all (crlf s) = all s := by
  induction s using Text.line_induction with
  | last l hl => rw [Text.crlf_of_notMem hl]
  | line l t hl ih =>
    rw [Text.crlf_line hl,all_append_lineFeed,all_append_lineFeed,all_append_return,ih]

section

variable {s s' k : Text} (h : all s = all s') (hk : isKey k = true)
include h hk

theorem hasBare_congr : hasBare s k = hasBare s' k := by
  rw [Bool.eq_iff_iff,hasBare_iff hk,hasBare_iff hk,h]

theorem valuesOf_congr (hb : hasBare s' k = false) : valuesOf s k = valuesOf s' k := by
  have hb' : hasBare s k = false := (hasBare_congr h hk).trans hb
  rw [valuesOf_of_hasBare hk hb',valuesOf_of_hasBare hk hb,h]

end

end Tag

namespace Reader

/-- Readers that keep the same values, of texts with the same tags. -/
structure Alike (r r' : Reader) : Prop where
  tags : Tag.all r.text = Tag.all r'.text
  cache : r.cache = r'.cache
  complete : r.complete = r'.complete

theorem alike_ofText {s s' : Text} (h : Tag.all s = Tag.all s') : Alike (ofText s) (ofText s') :=
  ⟨h,rfl,rfl⟩

namespace Alike

variable {r r' : Reader}

theorem lookup (h : Alike r r') (k : Text) :
    (r.lookup k).1 = (r'.lookup k).1 ∧ Alike (r.lookup k).2 (r'.lookup k).2 := by
  cases hc : r'.cache.lookup k with
  | some vs =>
    rw [lookup_of_kept hc,lookup_of_kept (h.cache ▸ hc)]
    exact ⟨rfl,h⟩
  | none =>
    cases hk : Tag.isKey k with
    | false => simp [Reader.lookup,h.cache,hc,hk,h]
    | true =>
      have hb := Tag.hasBare_congr h.tags hk
      cases hb' : Tag.hasBare r'.text k with
      | true => simp [Reader.lookup,h.cache,hc,hk,hb,hb',h]
      | false =>
        have hv := Tag.valuesOf_congr h.tags hk hb'
        simp only [Reader.lookup,h.cache,hc,hk,hb,hb',hv,Bool.not_true,Bool.false_eq_true,if_false]
        cases (Tag.valuesOf r'.text k).map Value.ofText with
        | nil => exact ⟨rfl,h⟩
        | cons v vs =>
          cases vs with
          | nil => exact ⟨rfl,h⟩
          | cons w vs => exact ⟨rfl,h.tags,rfl,h.complete⟩

theorem parseAll (h : Alike r r') : Alike r.parseAll r'.parseAll := by
  have ht : Annotations.ofText r.text = Annotations.ofText r'.text := by
    rw [Annotations.ofText,Annotations.ofText,h.tags]
  cases hc : r'.complete with
  | true => simpa [Reader.parseAll,h.complete,hc] using h
  | false =>
    simp only [Reader.parseAll,h.complete,hc,ht]
    exact ⟨h.tags,rfl,rfl⟩

theorem declarations (h : Alike r r') (tag : Text) :
    (r.declarations tag).1 = (r'.declarations tag).1 ∧
      Alike (r.declarations tag).2 (r'.declarations tag).2 := by
  obtain ⟨hv,hl⟩ := h.lookup tag
  refine ⟨?_,hl⟩
  show (VariableDeclaration.ofTag (r.lookup tag).1).mapError _ = _
  rw [hv]
  rfl

theorem answer (h : Alike r r') {q : Request} (hq : q ≠ .content) :
    (r.answer q).1 = (r'.answer q).1 ∧ Alike (r.answer q).2 (r'.answer q).2 := by
  cases q with
  | lookup k => exact ⟨congrArg Answer.value (h.lookup k).1,(h.lookup k).2⟩
  | parameter k => exact ⟨congrArg Answer.value (h.lookup k).1,(h.lookup k).2⟩
  | parseAll => exact ⟨rfl,h.parseAll⟩
  | parameters =>
    exact ⟨congrArg (fun es => Answer.parameters (Annotations.fields es)) h.parseAll.cache,h.parseAll⟩
  | occurrences => exact ⟨congrArg Answer.occurrences h.parseAll.cache,h.parseAll⟩
  | declarations tag => exact ⟨congrArg Answer.declarations (h.declarations tag).1,(h.declarations tag).2⟩
  | setContent s => exact ⟨rfl,alike_ofText rfl⟩
  | content => exact absurd rfl hq

theorem answers (h : Alike r r') {qs : List Request} (hq : Request.content ∉ qs) :
    r.answers qs = r'.answers qs := by
  induction qs generalizing r r' with
  | nil => rfl
  | cons q qs ih =>
    simp only [List.mem_cons,not_or] at hq
    obtain ⟨ha,hn⟩ := h.answer (Ne.symm hq.1)
    show (r.answer q).1 :: (r.answer q).2.answers qs = (r'.answer q).1 :: (r'.answer q).2.answers qs
    rw [ha,ih hn hq.2]

end Alike

end Reader

namespace SourceIndex

/-- Carriage returns before the line feeds of a source cannot be noticed. The same references are
declared, in the same order, and readers of their comments give the same occurrences, values and
declarations, before and after a full parse and in any run that does not ask for the text itself. -/
theorem readings_crlf (s : Text) :
    (ofText (crlf s)).references = (ofText s).references ∧
    ∀ r, let a := Reader.ofText ((ofText (crlf s)).comment r)
      let b := Reader.ofText ((ofText s).comment r)
      a.occurrences.1 = b.occurrences.1 ∧
      (∀ k, (a.lookup k).1 = (b.lookup k).1 ∧ (a.parseAll.lookup k).1 = (b.parseAll.lookup k).1) ∧
      (∀ tag, (a.declarations tag).1 = (b.declarations tag).1 ∧
        (a.parseAll.declarations tag).1 = (b.parseAll.declarations tag).1) ∧
      ∀ qs, Request.content ∉ qs → a.answers qs = b.answers qs := by
  refine ⟨references_crlf s,fun r => ?_⟩
  have ht : Tag.all ((ofText (crlf s)).comment r) = Tag.all ((ofText s).comment r) := by
    rw [comment_crlf,Tag.all_crlf]
  have h := Reader.alike_ofText ht
  refine ⟨h.parseAll.cache,fun k => ?_,fun tag => ?_,fun qs hq => h.answers hq⟩
  · exact ⟨(h.lookup k).1,(h.parseAll.lookup k).1⟩
  · exact ⟨(h.declarations tag).1,(h.parseAll.declarations tag).1⟩

theorem readings_crlf_of_lines :
    let s := "/**\n * @var int $n \n * @auth\n */\n#[Entity]\nclass A\n".toList
    let qs := [Request.declarations "var".toList,.parseAll,.lookup "auth".toList,.occurrences]
    (ofText s).comment ⟨['A'],none⟩ = "/**\n * @var int $n \n * @auth".toList ∧
      Request.content ∉ qs ∧
      (Reader.ofText ((ofText (crlf s)).comment ⟨['A'],none⟩)).answers qs =
        (Reader.ofText ((ofText s).comment ⟨['A'],none⟩)).answers qs := by
  intro s qs
  have hx : (ofText s).comment ⟨['A'],none⟩ = "/**\n * @var int $n \n * @auth".toList := by
    rw [ofText_eq_index]
    rfl
  have hq : Request.content ∉ qs := by simp [qs]
  exact ⟨hx,hq,((readings_crlf s).2 ⟨['A'],none⟩).2.2.2 qs hq⟩

end SourceIndex
end DocTags
