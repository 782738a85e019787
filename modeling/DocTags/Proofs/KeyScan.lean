import DocTags.Proofs.Segment

/-! The scanners of one key against the segments. A bare occurrence of a key is a segment that is the
key, and the values that are not empty are the raw texts of its segments with a value; an empty value
stands only where the key is bare. -/
namespace DocTags
namespace Tag

/-- An at sign, the key and blanks up to a terminator or the end of the text. -/
def BareOccurrence (s k : Text) : Prop :=
  ∃ before blanks after, s = before ++ '@' :: (k ++ (blanks ++ after)) ∧
    (∀ c ∈ blanks, isBlank c = true) ∧ EndsTag after

def raw? (k : Text) : Tag → Option Text
  | .valued k' raw => if k' = k then some raw else none
  | _ => none

theorem mem_afterAts {s rest : Text} : rest ∈ afterAts s ↔ ∃ before, s = before ++ '@' :: rest := by
  induction s with
  | nil => simp [afterAts]
  | cons c r ih =>
    have hr : (∃ before, c :: r = before ++ '@' :: rest) ↔
        (c = '@' ∧ r = rest) ∨ ∃ before, r = before ++ '@' :: rest := by
      constructor
      · rintro ⟨_ | ⟨d,before⟩,h⟩
        · exact Or.inl (List.cons.inj h)
        · exact Or.inr ⟨before,(List.cons.inj h).2⟩
      · rintro (⟨rfl,rfl⟩ | ⟨before,rfl⟩)
        · exact ⟨[],rfl⟩
        · exact ⟨c :: before,rfl⟩
    rw [hr,← ih]
    by_cases h : c = '@' <;> simp [afterAts,h,eq_comm]

theorem isBareAt_iff {k rest : Text} :
    isBareAt k rest = true ↔ ∃ blanks after, rest = k ++ (blanks ++ after) ∧
      (∀ c ∈ blanks, isBlank c = true) ∧ EndsTag after := by
  constructor
  · intro h
    unfold isBareAt at h
    cases hp : k.isPrefixOf? rest with
    | none => simp [hp] at h
    | some r =>
      have hr := List.isPrefixOf?_eq_some_iff_append_eq.mp hp
      refine ⟨r.takeWhile isBlank,r.dropWhile isBlank,?_,?_,?_⟩
      · rw [List.takeWhile_append_dropWhile,hr]
      · exact List.all_eq_true.mp List.all_takeWhile
      · intro c hc
        cases hd : r.dropWhile isBlank with
        | nil => simp [hd] at hc
        | cons d u =>
          simp only [hp,hd] at h
          simp only [hd,List.head?_cons,Option.some.injEq] at hc
          exact hc ▸ h
  · rintro ⟨blanks,after,rfl,hb,ha⟩
    have hp : k.isPrefixOf? (k ++ (blanks ++ after)) = some (blanks ++ after) :=
      List.isPrefixOf?_eq_some_iff_append_eq.mpr rfl
    have hd : (blanks ++ after).dropWhile isBlank = after :=
      Text.dropWhile_append_eq hb fun c hc => isBlank_of_isTerminator (ha c hc)
    simp only [isBareAt,hp,hd]
    cases after with
    | nil => rfl
    | cons c r => exact ha c rfl

theorem hasBare_iff_bareOccurrence {s k : Text} : hasBare s k = true ↔ BareOccurrence s k := by
  simp only [hasBare,List.any_eq_true,mem_afterAts,isBareAt_iff]
  constructor
  · rintro ⟨rest,⟨before,rfl⟩,blanks,after,rfl,h⟩
    exact ⟨before,blanks,after,rfl,h⟩
  · rintro ⟨before,blanks,after,rfl,h⟩
    exact ⟨_,⟨before,rfl⟩,blanks,after,rfl,h⟩

theorem isBareAt_iff_body {k rest : Text} (hk : isKey k = true) :
    isBareAt k rest = true ↔ body rest = k := by
  rw [isBareAt_iff,body_eq_iff]
  constructor
  · intro h
    refine ⟨h,?_,?_⟩
    · exact fun c hc => isTerminator_of_isKeyChar (isKeyChar_of_mem hk hc)
    · exact fun c hc => isBlank_of_isKeyChar (isKeyChar_of_mem hk (List.mem_of_getLast? hc))
  · exact fun h => h.cut

theorem valueAt?_eq_some_iff {k rest raw : Text} :
    valueAt? k rest = some raw ↔ ∃ r, rest = k ++ ' ' :: r ∧ body r = raw := by
  unfold valueAt?
  constructor
  · intro h
    split at h
    · rename_i c r hp
      split at h
      · rename_i hc
        have hr := List.isPrefixOf?_eq_some_iff_append_eq.mp hp
        exact ⟨r,by rw [← hr,hc],Option.some.inj h⟩
      · cases h
    · cases h
  · rintro ⟨r,rfl,rfl⟩
    have hp : k.isPrefixOf? (k ++ ' ' :: r) = some (' ' :: r) :=
      List.isPrefixOf?_eq_some_iff_append_eq.mpr rfl
    simp [hp]

theorem body_eq_valued_iff {k rest raw : Text} (hk : isKey k = true) :
    body rest = k ++ ' ' :: raw ↔ valueAt? k rest = some raw ∧ raw ≠ [] := by
  rw [valueAt?_eq_some_iff]
  constructor
  · intro h
    obtain ⟨⟨blanks,after,hr,hb,ha⟩,hi,ht⟩ := body_eq_iff.mp h
    have hraw : raw ≠ [] := by
      rintro rfl
      have hs := ht ' ' (by simp)
      cases hs
    refine ⟨⟨raw ++ (blanks ++ after),by simpa using hr,body_eq_iff.mpr ⟨?_,?_,?_⟩⟩,hraw⟩
    · exact ⟨blanks,after,rfl,hb,ha⟩
    · exact fun c hc => hi c (by simp [hc])
    · intro c hc
      refine ht c ?_
      rw [List.getLast?_append,List.getLast?_cons]
      simp [hc]
  · rintro ⟨⟨r,rfl,hr⟩,hraw⟩
    obtain ⟨⟨blanks,after,rfl,hb,ha⟩,hi,ht⟩ := body_eq_iff.mp hr
    refine body_eq_iff.mpr ⟨⟨blanks,after,by simp,hb,ha⟩,?_,?_⟩
    · intro c hc
      rcases List.mem_append.mp hc with hc | hc
      · exact isTerminator_of_isKeyChar (isKeyChar_of_mem hk hc)
      · rcases List.mem_cons.mp hc with rfl | hc
        · rfl
        · exact hi c hc
    · intro c hc
      refine ht c ?_
      cases hl : raw.getLast? with
      | none => exact absurd (List.getLast?_eq_none_iff.mp hl) hraw
      | some d => simpa [List.getLast?_append,List.getLast?_cons,hl] using hc

theorem isBareAt_of_valueAt?_nil {k rest : Text} (h : valueAt? k rest = some []) :
    isBareAt k rest = true := by
  obtain ⟨r,rfl,hr⟩ := valueAt?_eq_some_iff.mp h
  obtain ⟨⟨blanks,after,rfl,hb,ha⟩,-,-⟩ := body_eq_iff.mp hr
  refine isBareAt_iff.mpr ⟨' ' :: blanks,after,by simp,?_,ha⟩
  intro c hc
  rcases List.mem_cons.mp hc with rfl | hc
  · rfl
  · exact hb c hc

theorem raw?_ofSegment_body {k rest : Text} (hk : isKey k = true) :
    raw? k (ofSegment (body rest)) = (valueAt? k rest).filter (· ≠ []) := by
  apply Option.ext
  intro raw
  have hv : raw? k (ofSegment (body rest)) = some raw ↔ ofSegment (body rest) = .valued k raw := by
    cases ofSegment (body rest) <;> simp [raw?]
  have hd : Denotes (body rest) (.valued k raw) ↔ body rest = k ++ ' ' :: raw := by
    constructor
    · intro h
      generalize body rest = b at h
      cases h
      rfl
    · exact fun h => h ▸ .valued hk
  rw [hv,ofSegment_eq_iff,hd,body_eq_valued_iff hk]
  simp [Option.filter_eq_some_iff]

theorem hasBare_iff {s k : Text} (hk : isKey k = true) : hasBare s k = true ↔ .bare k ∈ all s := by
  have hd (rest : Text) : ofSegment (body rest) = .bare k ↔ body rest = k := by
    rw [ofSegment_eq_iff]
    constructor
    · intro h
      generalize body rest = b at h
      cases h
      rfl
    · exact fun h => h.symm ▸ .bare hk
  simp only [hasBare,List.any_eq_true,all,segments,List.map_map,List.mem_map,Function.comp_apply,hd,
    isBareAt_iff_body hk]

/-- The values of a key that are not empty are the raw texts of its tags, in order. -/
theorem valuesOf_filter {s k : Text} (hk : isKey k = true) :
    (valuesOf s k).filter (· ≠ []) = (all s).filterMap (raw? k) := by
  simp only [valuesOf,all,segments,List.map_map,List.filterMap_map,List.filter_filterMap]
  congr 1
  funext rest
  exact (raw?_ofSegment_body hk).symm

theorem hasBare_of_nil_mem_valuesOf {s k : Text} (h : [] ∈ valuesOf s k) : hasBare s k = true := by
  obtain ⟨rest,hr,hv⟩ := List.mem_filterMap.mp h
  exact List.any_eq_true.mpr ⟨rest,hr,isBareAt_of_valueAt?_nil hv⟩

theorem valuesOf_of_hasBare {s k : Text} (hk : isKey k = true) (h : hasBare s k = false) :
    valuesOf s k = (all s).filterMap (raw? k) := by
  rw [← valuesOf_filter hk,eq_comm,List.filter_eq_self]
  intro raw hr
  have hn : raw ≠ [] := by
    rintro rfl
    rw [hasBare_of_nil_mem_valuesOf hr] at h
    cases h
  simpa using hn

/-- The scanners of a key agree with the segments: a bare occurrence is a segment that is the key alone,
the values that are not empty are the raw texts of the segments with the key and a value, in order, and
an empty value stands only where the key is bare. -/
theorem keyScan_agrees_with_segments {s k : Text} (hk : isKey k = true) :
    (hasBare s k = true ↔ ∃ g ∈ segments s, ofSegment g = .bare k) ∧
    (valuesOf s k).filter (· ≠ []) = ((segments s).map ofSegment).filterMap (raw? k) ∧
    ([] ∈ valuesOf s k → hasBare s k = true) := by
  refine ⟨?_,valuesOf_filter hk,hasBare_of_nil_mem_valuesOf⟩
  rw [hasBare_iff hk,all,List.mem_map]

theorem keyScan_of_emptyValue :
    let s := "@get /users\n@get \r\n@gets 1 @get  x".toList
    let k := "get".toList
    isKey k = true ∧ valuesOf s k = ["/users".toList,[]," x".toList] ∧
      ((segments s).map ofSegment).filterMap (raw? k) = ["/users".toList," x".toList] ∧
      ∃ g ∈ segments s, ofSegment g = .bare k := by
  intro s k
  have hk : isKey k = true := by decide
  have hv : valuesOf s k = ["/users".toList,[]," x".toList] := by decide
  obtain ⟨hb,hr,he⟩ := keyScan_agrees_with_segments (s := s) hk
  refine ⟨hk,hv,?_,hb.mp (he (by simp [hv]))⟩
  rw [← hr,hv]
  rfl

end Tag
end DocTags
