import DocTags.Proofs.LineWords

/-! What a line declares, told by its parts: blanks, modifiers each followed by blanks, a keyword,
blanks and a name. The parts of a line are unique, so the scanner finds them. -/
namespace DocTags
namespace SourcePattern

def Blanks (g : Text) : Prop := ∀ c ∈ g, isGap c = true

def Flush (s : Text) : Prop := ∀ c, s.head? = some c → isGap c = false

/-- Words of the set, each followed by at least one blank. -/
inductive Modified (ws : List Text) : Text → Prop
  | done : Modified ws []
  | more {w g m : Text} (hw : w ∈ ws) (hg : Blanks g) (hn : g ≠ []) (hm : Modified ws m) :
    Modified ws (w ++ (g ++ m))

/-- The rest of a line stands behind blanks, modifiers, a keyword and blanks. -/
def Headed (modifiers keywords : List Text) (line rest : Text) : Prop :=
  ∃ b m k g, line = b ++ (m ++ (k ++ (g ++ rest))) ∧ Blanks b ∧ Modified modifiers m ∧
    k ∈ keywords ∧ Blanks g ∧ g ≠ [] ∧ Flush rest

/-- A letter or an underscore, and letters, digits and underscores behind it. -/
def IsName (n : Text) : Prop :=
  ∃ c r, n = c :: r ∧ isNameStart c = true ∧ ∀ d ∈ r, isNameChar d = true

/-- The name at the start of a text goes on as long as it can. -/
def Names (s n : Text) : Prop :=
  IsName n ∧ ∃ rest, s = n ++ rest ∧ ∀ c, rest.head? = some c → isNameChar c = false

def DeclaresClass (line c : Text) : Prop :=
  ∃ rest, Headed classModifiers classKeywords line rest ∧ Names rest c

def DeclaresFunction (line f : Text) : Prop :=
  ∃ rest, Headed functionModifiers functionKeywords line rest ∧
    (Names rest f ∨ ∃ b r, rest = '&' :: (b ++ r) ∧ Blanks b ∧ Names r f)

namespace IsName

variable {n : Text} (h : IsName n)
include h

theorem isNameChar_of_mem {c : Char} (hc : c ∈ n) : isNameChar c = true := by
  obtain ⟨d,r,rfl,hd,hr⟩ := h
  rcases List.mem_cons.mp hc with rfl | hc
  · exact LineScan.isNameChar_of_isNameStart hd
  · exact hr c hc

theorem ne_nil : n ≠ [] := by
  obtain ⟨c,r,rfl,-,-⟩ := h
  simp

theorem notMem {c : Char} (hc : isNameChar c = false) : c ∉ n := by
  intro hn
  rw [h.isNameChar_of_mem hn] at hc
  cases hc

end IsName

theorem isName_A : IsName ['A'] := ⟨'A',[],rfl,by decide,by simp⟩

theorem flush_skipGap (s : Text) : Flush (skipGap s) := fun _ hc => Text.head?_dropWhile hc

theorem skipGap_append_of_blanks {b s : Text} (hb : Blanks b) (hs : Flush s) :
    skipGap (b ++ s) = s :=
  Text.dropWhile_append_eq hb hs

theorem exists_blanks (s : Text) : ∃ b, s = b ++ skipGap s ∧ Blanks b := by
  refine ⟨s.takeWhile isGap,List.takeWhile_append_dropWhile.symm,?_⟩
  exact fun c hc => List.mem_takeWhile_imp hc

theorem flush_word {ws : List Text} (hw : WordSet ws) {w : Text} (h : w ∈ ws) (s : Text) :
    Flush (w ++ s) := by
  cases w with
  | nil => exact absurd h hw.notEmpty
  | cons c w =>
    intro d hd
    obtain rfl := Option.some.inj hd
    exact hw.noGap _ h c (by simp)

theorem Modified.flush_append {ws : List Text} (hw : WordSet ws) {m s : Text}
    (hm : Modified ws m) (hs : Flush s) : Flush (m ++ s) := by
  cases hm with
  | done => exact hs
  | more h hg hn hm =>
    rw [List.append_assoc]
    exact flush_word hw h _

theorem word_append_blanks {w g : Text} (hw : ∀ c ∈ w, isGap c = false) (hg : Blanks g)
    (hn : g ≠ []) (r : Text) :
    firstWord (w ++ (g ++ r)) = w ∧ afterWord (w ++ (g ++ r)) = g ++ r := by
  have hgap : ∀ c, (g ++ r).head? = some c → (!isGap c) = false := by
    intro c hc
    cases g with
    | nil => exact absurd rfl hn
    | cons d g =>
      obtain rfl := Option.some.inj hc
      simp [hg d (by simp)]
  have hw' : ∀ c ∈ w, (!isGap c) = true := by simpa using hw
  exact ⟨Text.takeWhile_append_eq hw' hgap,Text.dropWhile_append_eq hw' hgap⟩

theorem word?_eq_some_iff {ws : List Text} (hw : WordSet ws) {s r : Text} :
    word? ws s = some r ↔
      ∃ w ∈ ws, ∃ g, s = w ++ (g ++ r) ∧ Blanks g ∧ g ≠ [] ∧ Flush r := by
  rw [word?_eq hw]
  constructor
  · intro h
    split at h
    · rename_i hf
      obtain rfl := Option.some.inj h
      obtain ⟨g,hs,hb⟩ := exists_blanks (afterWord s)
      refine ⟨firstWord s,hf.1,g,?_,hb,?_,flush_skipGap _⟩
      · rw [← hs,firstWord_append_afterWord]
      · intro hg
        cases ha : afterWord s with
        | nil => exact hf.2 ha
        | cons c r =>
          have hc : isGap c = true := isGap_head_afterWord (by rw [ha]; rfl)
          have hc' : isGap c = false := flush_skipGap (afterWord s) c (by
            rw [hg,List.nil_append] at hs
            rw [← hs,ha]
            rfl)
          rw [hc] at hc'
          cases hc'
    · cases h
  · intro h
    obtain ⟨w,hm,g,rfl,hg,hn,hr⟩ := h
    obtain ⟨hf,ha⟩ := word_append_blanks (hw.noGap w hm) hg hn r
    rw [hf,ha,skipGap_append_of_blanks hg hr,if_pos ⟨hm,by simp [hn]⟩]

theorem word?_eq_none {ws : List Text} (hw : WordSet ws) {k g r : Text} (hk : k ∉ ws)
    (hkg : ∀ c ∈ k, isGap c = false) (hg : Blanks g) (hn : g ≠ []) :
    word? ws (k ++ (g ++ r)) = none := by
  obtain ⟨hf,-⟩ := word_append_blanks hkg hg hn r
  rw [word?_eq hw,if_neg fun h => hk (hf ▸ h.1)]

theorem skipWords_of_none {ws : List Text} {s : Text} (h : word? ws s = none) (n : Nat) :
    skipWords ws n s = s := by
  cases n with
  | zero => rfl
  | succ n => rw [skipWords,h]

theorem exists_modified {ws : List Text} (hw : WordSet ws) (n : Nat) {s : Text} (hs : Flush s) :
    ∃ m, s = m ++ skipWords ws n s ∧ Modified ws m ∧ Flush (skipWords ws n s) := by
  induction n generalizing s with
  | zero => exact ⟨[],rfl,.done,hs⟩
  | succ n ih =>
    rw [skipWords]
    cases ho : word? ws s with
    | none => exact ⟨[],rfl,.done,hs⟩
    | some r =>
      obtain ⟨w,hm,g,rfl,hg,hn,hr⟩ := (word?_eq_some_iff hw).mp ho
      obtain ⟨m,hrm,hmod,hf⟩ := ih hr
      refine ⟨w ++ (g ++ m),?_,.more hm hg hn hmod,hf⟩
      simp only [List.append_assoc,← hrm]

theorem Modified.skipWords_append {ws : List Text} (hw : WordSet ws) {m r : Text}
    (hm : Modified ws m) (hr : Flush r) (hn : word? ws r = none) (n : Nat)
    (hl : m.length ≤ n) : skipWords ws n (m ++ r) = r := by
  induction hm generalizing n with
  | done => exact skipWords_of_none hn n
  | @more w g m h hg hgn hmod ih =>
    have ho : word? ws (w ++ (g ++ m) ++ r) = some (m ++ r) := by
      refine (word?_eq_some_iff hw).mpr ⟨w,h,g,?_,hg,hgn,hmod.flush_append hw hr⟩
      simp only [List.append_assoc]
    have hg1 : 0 < g.length := List.length_pos_iff.mpr hgn
    rw [List.length_append,List.length_append] at hl
    cases n with
    | zero => omega
    | succ n =>
      rw [skipWords,ho]
      exact ih n (by omega)

/-- Keywords are no modifiers, so the modifiers of a line end at its keyword. -/
theorem header?_eq_some_iff {modifiers keywords : List Text} (hm : WordSet modifiers)
    (hk : WordSet keywords) (hd : ∀ w ∈ keywords, w ∉ modifiers) {line rest : Text}
    (h : '\n' ∉ line) :
    header? modifiers keywords line = some rest ↔ Headed modifiers keywords line rest := by
  rw [LineScan.header?_of_notMem _ _ h]
  constructor
  · intro ho
    obtain ⟨b,hb,hbl⟩ := exists_blanks line
    obtain ⟨m,hs,hmod,-⟩ := exists_modified hm line.length (flush_skipGap line)
    obtain ⟨k,hkm,g,hw,hg,hn,hr⟩ := (word?_eq_some_iff hk).mp ho
    refine ⟨b,m,k,g,?_,hbl,hmod,hkm,hg,hn,hr⟩
    rw [← hw,← hs,← hb]
  · intro ho
    obtain ⟨b,m,k,g,hline,hb,hmod,hkm,hg,hn,hr⟩ := ho
    have hkf : Flush (k ++ (g ++ rest)) := flush_word hk hkm _
    have hs : skipGap line = m ++ (k ++ (g ++ rest)) := by
      rw [hline]
      exact skipGap_append_of_blanks hb (hmod.flush_append hm hkf)
    have hl : m.length ≤ line.length := by
      rw [hline]
      simp only [List.length_append]
      omega
    have hno : word? modifiers (k ++ (g ++ rest)) = none :=
      word?_eq_none hm (hd k hkm) (hk.noGap k hkm) hg hn
    rw [hs,hmod.skipWords_append hm hkf hno _ hl]
    exact (word?_eq_some_iff hk).mpr ⟨k,hkm,g,rfl,hg,hn,hr⟩

theorem name?_eq_some_iff {s n : Text} : (name? s).map Prod.fst = some n ↔ Names s n := by
  constructor
  · intro h
    cases s with
    | nil => cases h
    | cons c r =>
      by_cases hc : isNameStart c = true
      · simp only [name?,hc,if_true,Option.map_some,Option.some.injEq] at h
        subst h
        refine ⟨⟨c,_,rfl,hc,fun d hd => List.mem_takeWhile_imp hd⟩,r.dropWhile isNameChar,?_,?_⟩
        · rw [List.cons_append,List.takeWhile_append_dropWhile]
        · exact fun d hd => Text.head?_dropWhile hd
      · simp [name?,hc] at h
  · intro h
    obtain ⟨⟨c,r,rfl,hc,hr⟩,rest,rfl,hrest⟩ := h
    have ht := Text.takeWhile_append_eq hr hrest
    simp [name?,hc,ht]

theorem Names.head {s n : Text} (h : Names s n) :
    ∃ c, s.head? = some c ∧ isNameStart c = true := by
  obtain ⟨⟨c,r,rfl,hc,-⟩,rest,rfl,-⟩ := h
  exact ⟨c,rfl,hc⟩

theorem Names.flush {s n : Text} (h : Names s n) : Flush s := by
  obtain ⟨c,hs,hc⟩ := h.head
  intro d hd
  obtain rfl := Option.some.inj (hs.symm.trans hd)
  exact LineScan.isGap_of_isNameChar (LineScan.isNameChar_of_isNameStart hc)

theorem names_afterAmpersand_iff {s f : Text} :
    Names (afterAmpersand s) f ↔
      Names s f ∨ ∃ b r, s = '&' :: (b ++ r) ∧ Blanks b ∧ Names r f := by
  constructor
  · intro h
    unfold afterAmpersand at h
    split at h
    · rename_i r
      obtain ⟨b,hr,hb⟩ := exists_blanks r
      exact Or.inr ⟨b,skipGap r,by rw [← hr],hb,h⟩
    · exact Or.inl h
  · intro h
    rcases h with h | ⟨b,r,rfl,hb,hr⟩
    · obtain ⟨c,hs,hc⟩ := h.head
      cases s with
      | nil => cases hs
      | cons d s =>
        obtain rfl := Option.some.inj hs
        have hne : d ≠ '&' := fun he => absurd (he ▸ hc) (by decide)
        have ha : afterAmpersand (d :: s) = d :: s := by simp [afterAmpersand,hne]
        rw [ha]
        exact h
    · have ha : afterAmpersand ('&' :: (b ++ r)) = r := skipGap_append_of_blanks hb hr.flush
      rw [ha]
      exact hr

end SourcePattern

namespace LineScan

open SourcePattern SourceIndex

theorem className?_eq_some_iff {line c : Text} (h : '\n' ∉ line) :
    className? line = some c ↔ DeclaresClass line c := by
  rw [className?_eq h,classDeclaration_eq,Option.map_bind,Option.bind_eq_some_iff]
  refine exists_congr fun rest => and_congr ?_ name?_eq_some_iff
  exact header?_eq_some_iff wordSet_classModifiers wordSet_classKeywords (by decide) h

theorem functionName?_eq_some_iff {line f : Text} (h : '\n' ∉ line) :
    functionName? line = some f ↔ DeclaresFunction line f := by
  rw [functionName?_eq h,functionDeclaration_eq,Option.map_bind,Option.bind_eq_some_iff]
  refine exists_congr fun rest => and_congr ?_ (name?_eq_some_iff.trans names_afterAmpersand_iff)
  exact header?_eq_some_iff wordSet_functionModifiers wordSet_functionKeywords (by decide) h

theorem landmark?_eq_classDeclaration_iff {line c : Text} (h : '\n' ∉ line) :
    landmark? line = some (.classDeclaration c) ↔ DeclaresClass line c := by
  rw [← className?_eq_some_iff h]
  unfold landmark?
  cases className? line with
  | some d => simp
  | none =>
    cases functionName? line with
    | some f => simp
    | none => simp

theorem landmark?_eq_functionDeclaration_iff {line f : Text} (h : '\n' ∉ line) :
    landmark? line = some (.functionDeclaration f) ↔ DeclaresFunction line f := by
  rw [← functionName?_eq_some_iff h]
  unfold landmark?
  rcases className?_or_functionName? line with hc | hf
  · rw [hc]
    cases functionName? line with
    | some g => simp
    | none => simp
  · rw [hf]
    cases className? line with
    | some d => simp
    | none => simp

/-- A line with a closing brace in the first column is no declaration. -/
theorem landmark?_eq_classEnd_iff {line : Text} :
    landmark? line = some .classEnd ↔ line.head? = some '\x7d' := by
  constructor
  · intro h
    by_contra hb
    unfold landmark? at h
    cases hc : className? line with
    | some d => simp [hc] at h
    | none => cases hf : functionName? line <;> simp [hc,hf,hb] at h
  · intro h
    obtain ⟨hc,hf⟩ := names_of_brace h
    simp [landmark?,hc,hf,h]

theorem landmark?_eq_none_iff {line : Text} (h : '\n' ∉ line) :
    landmark? line = none ↔ (∀ c, ¬ DeclaresClass line c) ∧ (∀ f, ¬ DeclaresFunction line f) ∧
      line.head? ≠ some '\x7d' := by
  constructor
  · intro hn
    refine ⟨fun c hc => ?_,fun f hf => ?_,fun hb => ?_⟩
    · rw [(landmark?_eq_classDeclaration_iff h).mpr hc] at hn
      cases hn
    · rw [(landmark?_eq_functionDeclaration_iff h).mpr hf] at hn
      cases hn
    · rw [landmark?_eq_classEnd_iff.mpr hb] at hn
      cases hn
  · intro hn
    cases hm : landmark? line with
    | none => rfl
    | some m =>
      cases m with
      | classDeclaration c => exact absurd ((landmark?_eq_classDeclaration_iff h).mp hm) (hn.1 c)
      | functionDeclaration f =>
        exact absurd ((landmark?_eq_functionDeclaration_iff h).mp hm) (hn.2.1 f)
      | classEnd => exact absurd (landmark?_eq_classEnd_iff.mp hm) hn.2.2

end LineScan
end DocTags
