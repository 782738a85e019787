import DocTags.Proofs.Cuts
import DocTags.Proofs.Lines
import DocTags.Tag

/-! Segments told by their parts. The body behind an at sign is what stands before blanks and a
terminator, and its tag follows from a split at a key. The tags of a text are those of its lines, one
after the other. -/
namespace DocTags
namespace Tag

def EndsTag (s : Text) : Prop := ∀ c, s.head? = some c → isTerminator c = true

/-- The body of a tag whose at sign stands before `rest`: all up to the next terminator or the end,
without the blanks there. -/
structure IsBody (b rest : Text) : Prop where
  cut : ∃ blanks after, rest = b ++ (blanks ++ after) ∧ (∀ c ∈ blanks, isBlank c = true) ∧
    EndsTag after
  inside : ∀ c ∈ b, isTerminator c = false
  trimmed : ∀ c, b.getLast? = some c → isBlank c = false

/-- What a body means: a key and a space before a raw text, a key alone, or neither. -/
inductive Denotes : Text → Tag → Prop
  | valued {k raw : Text} (h : isKey k = true) : Denotes (k ++ ' ' :: raw) (.valued k raw)
  | bare {k : Text} (h : isKey k = true) : Denotes k (.bare k)
  | malformed {s : Text} (h : isKey s = false)
      (hs : ∀ k raw, s = k ++ ' ' :: raw → isKey k = false) : Denotes s (.malformed s)

theorem isTerminator_of_isBlank {c : Char} (h : isBlank c = true) : isTerminator c = false := by
  simp only [isBlank,Bool.or_eq_true,decide_eq_true_eq] at h
  rcases h with (rfl | rfl) | rfl <;> rfl

theorem isBlank_of_isTerminator {c : Char} (h : isTerminator c = true) : isBlank c = false := by
  by_contra hb
  rw [isTerminator_of_isBlank (by simpa using hb)] at h
  cases h

theorem isTerminator_of_isKeyChar {c : Char} (h : isKeyChar c = true) : isTerminator c = false := by
  by_contra ht
  simp only [isTerminator,Bool.not_eq_false,Bool.or_eq_true,decide_eq_true_eq] at ht
  rcases ht with rfl | rfl <;> revert h <;> decide

theorem isBlank_of_isKeyChar {c : Char} (h : isKeyChar c = true) : isBlank c = false := by
  by_contra hb
  simp only [isBlank,Bool.not_eq_false,Bool.or_eq_true,decide_eq_true_eq] at hb
  rcases hb with (rfl | rfl) | rfl <;> revert h <;> decide

theorem isKeyChar_of_mem {k : Text} {c : Char} (hk : isKey k = true) (hc : c ∈ k) :
    isKeyChar c = true := by
  simp only [isKey,Bool.and_eq_true] at hk
  exact List.all_eq_true.mp hk.2 c hc

theorem space_notMem_of_isKey {k : Text} (hk : isKey k = true) : ' ' ∉ k := by
  intro h
  have hc := isBlank_of_isKeyChar (isKeyChar_of_mem hk h)
  cases hc

theorem takeWhile_eq_iff {rest u : Text} :
    (rest.takeWhile fun c => !isTerminator c) = u ↔
      ∃ after, rest = u ++ after ∧ (∀ c ∈ u, isTerminator c = false) ∧ EndsTag after := by
  constructor
  · rintro rfl
    refine ⟨_,List.takeWhile_append_dropWhile.symm,?_,?_⟩
    · intro c hc
      simpa using List.all_eq_true.mp List.all_takeWhile c hc
    · intro c hc
      simpa using Text.head?_dropWhile hc
  · rintro ⟨after,rfl,hu,ha⟩
    exact Text.takeWhile_append_eq (by simpa using hu) fun c hc => by simp [ha c hc]

theorem body_eq_iff {b rest : Text} : body rest = b ↔ IsBody b rest := by
  rw [body,Text.trimEnd_eq_iff]
  constructor
  · rintro ⟨blanks,hu,hb,ht⟩
    obtain ⟨after,hr,hi,ha⟩ := takeWhile_eq_iff.mp hu
    refine ⟨⟨blanks,after,by rw [hr,List.append_assoc],hb,ha⟩,?_,ht⟩
    exact fun c hc => hi c (List.mem_append_left _ hc)
  · rintro ⟨⟨blanks,after,rfl,hb,ha⟩,hi,ht⟩
    refine ⟨blanks,takeWhile_eq_iff.mpr ⟨after,(List.append_assoc ..).symm,?_,ha⟩,hb,ht⟩
    intro c hc
    rcases List.mem_append.mp hc with hc | hc
    · exact hi c hc
    · exact isTerminator_of_isBlank (hb c hc)

theorem isBody_body (rest : Text) : IsBody (body rest) rest := body_eq_iff.mp rfl

/-- A split of a segment at a space behind a key is the split at its first space. -/
theorem ofSegment_eq_iff {s : Text} {t : Tag} : ofSegment s = t ↔ Denotes s t := by
  constructor
  · rintro rfl
    unfold ofSegment
    cases hc : Text.cut? [' '] s with
    | none =>
      have hn := Text.cut?_singleton_eq_none_iff.mp hc
      cases hk : isKey s with
      | true => simpa using Denotes.bare hk
      | false =>
        refine Denotes.malformed hk ?_
        rintro k raw rfl
        simp at hn
    | some p =>
      obtain ⟨k,raw⟩ := p
      obtain ⟨rfl,hn⟩ := Text.cut?_singleton_eq_some_iff.mp hc
      have hs : isKey (k ++ ' ' :: raw) = false := by
        by_contra h
        exact space_notMem_of_isKey (by simpa using h) (by simp)
      cases hk : isKey k with
      | true => simpa [hk] using Denotes.valued hk
      | false =>
        simp only [hk,hs,Bool.false_eq_true,if_false]
        refine Denotes.malformed hs fun k' raw' h => ?_
        by_contra hk'
        have hn' := space_notMem_of_isKey (by simpa using hk')
        have he := Text.cut?_singleton_eq_some_iff.mpr ⟨h,hn'⟩
        rw [hc] at he
        cases he
        exact hk' hk
  · intro h
    cases h with
    | @valued k raw hk =>
      have hc := Text.cut?_singleton_eq_some_iff.mpr
        ⟨(rfl : k ++ ' ' :: raw = _),space_notMem_of_isKey hk⟩
      simp [ofSegment,hc,hk]
    | bare hk =>
      have hc := Text.cut?_singleton_eq_none_iff.mpr (space_notMem_of_isKey hk)
      simp [ofSegment,hc,hk]
    | malformed hs hk =>
      cases hc : Text.cut? [' '] s with
      | none => simp [ofSegment,hc,hs]
      | some p =>
        have he := (Text.cut?_singleton_eq_some_iff.mp hc).1
        simp [ofSegment,hc,hs,hk p.1 p.2 he]

theorem afterAts_append (s t : Text) :
    afterAts (s ++ t) = (afterAts s).map (· ++ t) ++ afterAts t := by
  induction s with
  | nil => rfl
  | cons c s ih => by_cases hc : c = '@' <;> simp [afterAts,hc,ih]

theorem body_append_lineFeed (rest t : Text) : body (rest ++ '\n' :: t) = body rest := by
  rw [body,body,Text.takeWhile_append_lineFeed (by decide)]

/-- The lines of a text are read one by one. -/
theorem all_append_lineFeed (s t : Text) : all (s ++ '\n' :: t) = all s ++ all t := by
  simp [all,segments,afterAts_append,afterAts,body_append_lineFeed,Function.comp_def]

theorem afterAts_of_notMem {s : Text} (h : '@' ∉ s) : afterAts s = [] := by
  apply List.length_eq_zero_iff.mp
  rw [length_afterAts]
  exact List.count_eq_zero.mpr h

theorem all_of_notMem {s : Text} (h : '@' ∉ s) : all s = [] := by
  simp [all,segments,afterAts_of_notMem h]

theorem all_append_at {s b : Text} (hs : '@' ∉ s) (hb : ∀ c ∈ b, isTerminator c = false)
    (hl : ∀ c, b.getLast? = some c → isBlank c = false) : all (s ++ '@' :: b) = [ofSegment b] := by
  have hat : '@' ∉ b := by
    intro h
    cases hb '@' h
  have hd : afterAts (s ++ '@' :: b) = [b] := by
    simp [afterAts_append,afterAts,afterAts_of_notMem hs,afterAts_of_notMem hat]
  have hbody : body b = b := body_eq_iff.mpr ⟨⟨[],[],by simp,by simp,by simp [EndsTag]⟩,hb,hl⟩
  simp [all,segments,hd,hbody]

end Tag
end DocTags
