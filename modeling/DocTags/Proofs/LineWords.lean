import DocTags.LineScan
import DocTags.Proofs.Cuts
import DocTags.Proofs.Lines

/-! What a line declares. Modifiers and keywords hold no blank and none is the start of another, so the
words of a line decide how a declaration is read, and there is one way to read it. -/
namespace DocTags
namespace SourcePattern

def firstWord (s : Text) : Text := s.takeWhile fun c => !isGap c

def afterWord (s : Text) : Text := s.dropWhile fun c => !isGap c

/-- Words that a text can be searched for in any order: none is empty, holds a blank or a line feed, or
is the start of another. -/
structure WordSet (ws : List Text) : Prop where
  notEmpty : [] ∉ ws
  noGap : ∀ w ∈ ws, ∀ c ∈ w, isGap c = false
  noLineFeed : ∀ w ∈ ws, '\n' ∉ w
  prefixFree : ∀ w ∈ ws, ∀ w' ∈ ws, w <+: w' → w = w'

theorem wordSet_of_notMem {ws : List Text} (he : [] ∉ ws)
    (hc : ∀ w ∈ ws, ' ' ∉ w ∧ '\t' ∉ w ∧ '\n' ∉ w)
    (hp : ∀ w ∈ ws, ∀ w' ∈ ws, w <+: w' → w = w') : WordSet ws where
  notEmpty := he
  noGap := by
    intro w hw c hcw
    obtain ⟨hs,ht,-⟩ := hc w hw
    have hs' : c ≠ ' ' := fun h => hs (h ▸ hcw)
    have ht' : c ≠ '\t' := fun h => ht (h ▸ hcw)
    simp [isGap,hs',ht']
  noLineFeed := fun w hw => (hc w hw).2.2
  prefixFree := hp

theorem wordSet_classModifiers : WordSet classModifiers :=
  wordSet_of_notMem (by decide) (by decide) (by decide)

theorem wordSet_classKeywords : WordSet classKeywords :=
  wordSet_of_notMem (by decide) (by decide) (by decide)

theorem wordSet_functionModifiers : WordSet functionModifiers :=
  wordSet_of_notMem (by decide) (by decide) (by decide)

theorem wordSet_functionKeywords : WordSet functionKeywords :=
  wordSet_of_notMem (by decide) (by decide) (by decide)

theorem firstWord_append_afterWord (s : Text) : firstWord s ++ afterWord s = s :=
  List.takeWhile_append_dropWhile

theorem isGap_head_afterWord {s : Text} {c : Char} (h : (afterWord s).head? = some c) :
    isGap c = true := by
  simpa using Text.head?_dropWhile h

theorem gap?_afterWord (s : Text) :
    gap? (afterWord s) = if afterWord s = [] then none else some (skipGap (afterWord s)) := by
  cases ha : afterWord s with
  | nil => rfl
  | cons c r =>
    have hc : isGap c = true := isGap_head_afterWord (by rw [ha]; rfl)
    simp [gap?,skipGap,hc]

theorem findSome?_isPrefixOf? {ws : List Text} (hw : WordSet ws) {w r : Text} (h : w ∈ ws) :
    (ws.findSome? (·.isPrefixOf? (w ++ r))) = some r := by
  cases hf : ws.findSome? (·.isPrefixOf? (w ++ r)) with
  | none =>
    have hn := List.findSome?_eq_none_iff.mp hf w h
    rw [List.isPrefixOf?_eq_some_iff_append_eq.mpr rfl] at hn
    cases hn
  | some r' =>
    obtain ⟨w',hw',hp⟩ := List.exists_of_findSome?_eq_some hf
    have he := List.isPrefixOf?_eq_some_iff_append_eq.mp hp
    have hww : w' = w := by
      rcases List.prefix_or_prefix_of_prefix ⟨r',he⟩ (List.prefix_append w r) with hpre | hpre
      · exact hw.prefixFree w' hw' w h hpre
      · exact (hw.prefixFree w h w' hw' hpre).symm
    subst hww
    rw [List.append_cancel_left he]

/-- A word of the set stands before a gap exactly if it is the first word and something follows. -/
theorem word?_eq {ws : List Text} (hw : WordSet ws) (s : Text) :
    word? ws s =
      if firstWord s ∈ ws ∧ afterWord s ≠ [] then some (skipGap (afterWord s)) else none := by
  by_cases hf : firstWord s ∈ ws
  · have hs := findSome?_isPrefixOf? hw (r := afterWord s) hf
    rw [firstWord_append_afterWord] at hs
    rw [word?,hs,Option.bind_some,gap?_afterWord]
    by_cases ha : afterWord s = [] <;> simp [hf,ha]
  · rw [if_neg fun h => hf h.1,word?,Option.bind_eq_none_iff]
    intro r hr
    obtain ⟨w,hm,hp⟩ := List.exists_of_findSome?_eq_some hr
    have he := List.isPrefixOf?_eq_some_iff_append_eq.mp hp
    subst he
    cases r with
    | nil => rfl
    | cons c r =>
      by_contra hg
      have hc : isGap c = true := by
        by_contra hc
        simp [gap?,hc] at hg
      have hww : firstWord (w ++ c :: r) = w :=
        Text.takeWhile_append_eq (by simpa using hw.noGap w hm) (by simpa using hc)
      exact hf (hww.symm ▸ hm)

theorem word?_nil {ws : List Text} (hw : WordSet ws) : word? ws [] = none := by
  rw [word?_eq hw]
  simp [afterWord]

theorem length_skipGap_afterWord {s : Text} (h : afterWord s ≠ []) :
    (skipGap (afterWord s)).length < s.length := by
  have hl := congrArg List.length (firstWord_append_afterWord s)
  rw [List.length_append] at hl
  cases ha : afterWord s with
  | nil => exact absurd ha h
  | cons c r =>
    have hc : isGap c = true := isGap_head_afterWord (by rw [ha]; rfl)
    have hs := (List.dropWhile_suffix isGap (l := r)).length_le
    rw [ha,List.length_cons] at hl
    simp only [skipGap,List.dropWhile_cons,hc,if_true]
    omega

/-- The text behind blanks, modifiers, a keyword and blanks. -/
def header? (modifiers keywords : List Text) (s : Text) : Option Text :=
  word? keywords (skipWords modifiers (lineLength s) (skipGap s))

def afterAmpersand : Text → Text
  | '&' :: r => skipGap r
  | r => r

theorem classDeclaration_eq (s : Text) :
    classDeclaration true s = (header? classModifiers classKeywords s).bind name? := rfl

theorem functionDeclaration_eq (s : Text) :
    functionDeclaration true s =
      (header? functionModifiers functionKeywords s).bind fun r => name? (afterAmpersand r) := by
  simp only [functionDeclaration,if_true,header?,Option.bind_eq_bind]
  congr 1
  funext r
  cases r with
  | nil => rfl
  | cons c r => by_cases hc : c = '&' <;> simp [afterAmpersand,hc]

theorem lineLength_of_notMem {l : Text} (h : '\n' ∉ l) : lineLength l = l.length := by
  have hl : (l.takeWhile (· ≠ '\n')) = l := by
    rw [List.takeWhile_eq_self_iff]
    intro c hc
    simpa using fun he : c = '\n' => h (he ▸ hc)
  rw [lineLength,hl]

end SourcePattern

namespace LineScan

open SourcePattern

def laterWords (s : Text) : List Text :=
  if skipGap (afterWord s) = [] then [] else words (skipGap (afterWord s))

theorem words_eq_cons (s : Text) : words s = firstWord s :: laterWords s := by
  unfold laterWords
  induction s with
  | nil => rfl
  | cons c r ih =>
    by_cases hc : isGap c = true
    · have hf : firstWord (c :: r) = [] := by simp [firstWord,hc]
      have ha : skipGap (afterWord (c :: r)) = skipGap r := by simp [afterWord,skipGap,hc]
      rw [hf,ha,words,if_pos hc]
      cases r with
      | nil => rfl
      | cons d r =>
        by_cases hd : isGap d = true
        · have hf' : firstWord (d :: r) = [] := by simp [firstWord,hd]
          have ha' : afterWord (d :: r) = d :: r := by simp [afterWord,hd]
          rw [ih,hf',ha']
        · have hf' : firstWord (d :: r) = d :: firstWord r := by simp [firstWord,hd]
          have hs : skipGap (d :: r) = d :: r := by simp [skipGap,hd]
          rw [hs,if_neg (List.cons_ne_nil d r),ih,hf']
    · have hf : firstWord (c :: r) = c :: firstWord r := by simp [firstWord,hc]
      have ha : afterWord (c :: r) = afterWord r := by simp [afterWord,hc]
      rw [hf,ha,words,if_neg hc,ih]

/-- The word behind modifiers and a keyword, and the words behind it. -/
def afterKeyword? (modifiers keywords ws : List Text) : Option (Text × List Text) :=
  match ws.dropWhile (modifiers.contains ·) with
  | keyword :: name :: rest => if keywords.contains keyword then some (name,rest) else none
  | _ => none

/-- The name of a function in the words behind its keyword. -/
def declaredFunction? (name : Text) (rest : List Text) : Option Text :=
  match name,rest with
  | ['&'],name :: _ => wordName? name
  | '&' :: name,_ => wordName? name
  | name,_ => wordName? name

theorem className?_eq_bind (line : Text) :
    className? line = (afterKeyword? classModifiers classKeywords (lineWords line)).bind
      fun p => wordName? p.1 := by
  rcases hd : (lineWords line).dropWhile (classModifiers.contains ·) with _ | ⟨k,_ | ⟨w,ws⟩⟩
  · simp only [className?,afterKeyword?,hd,Option.bind_none]
  · simp only [className?,afterKeyword?,hd,Option.bind_none]
  · simp only [className?,afterKeyword?,hd]
    cases classKeywords.contains k <;> rfl

theorem functionName?_eq_bind (line : Text) :
    functionName? line = (afterKeyword? functionModifiers functionKeywords (lineWords line)).bind
      fun p => declaredFunction? p.1 p.2 := by
  rcases hd : (lineWords line).dropWhile (functionModifiers.contains ·) with _ | ⟨k,_ | ⟨w,ws⟩⟩
  · simp only [functionName?,afterKeyword?,hd,Option.bind_none]
  · simp only [functionName?,afterKeyword?,hd,Option.bind_none]
  · simp only [functionName?,afterKeyword?,hd]
    cases functionKeywords.contains k <;> rfl

theorem afterKeyword?_words {modifiers keywords : List Text} (hm : WordSet modifiers)
    (hk : WordSet keywords) (n : Nat) (s : Text) (hn : s.length ≤ n) :
    afterKeyword? modifiers keywords (words s) =
      (word? keywords (skipWords modifiers n s)).bind fun r =>
        if r = [] then none else some (firstWord r,laterWords r) := by
  induction n generalizing s with
  | zero =>
    have hs : s = [] := List.length_eq_zero_iff.mp (Nat.le_zero.mp hn)
    subst hs
    rw [skipWords,word?_nil hk]
    simp [words,afterKeyword?,hm.notEmpty]
  | succ n ih =>
    rw [skipWords,word?_eq hm,words_eq_cons]
    by_cases hf : firstWord s ∈ modifiers
    · by_cases ha : afterWord s = []
      · have hl : laterWords s = [] := by simp [laterWords,ha,skipGap]
        simp only [hf,ha,word?_eq hk,ne_eq,not_true_eq_false,and_false,if_false]
        simp [afterKeyword?,hf,hl]
      · have hl := length_skipGap_afterWord ha
        have hh := ih (skipGap (afterWord s)) (by omega)
        simp only [hf,ha,true_and,ne_eq,not_false_eq_true,if_true]
        rw [← hh,laterWords]
        by_cases hr : skipGap (afterWord s) = []
        · simp [afterKeyword?,hf,hr,words,hm.notEmpty]
        · simp [afterKeyword?,hf,hr]
    · rw [if_neg fun h => hf h.1,word?_eq hk]
      by_cases hr : skipGap (afterWord s) = []
      · have hl : laterWords s = [] := by simp [laterWords,hr]
        by_cases hw : firstWord s ∈ keywords ∧ afterWord s ≠ [] <;>
          simp [afterKeyword?,hf,hl,hr,hw]
      · have ha : afterWord s ≠ [] := by
          intro ha
          rw [ha] at hr
          exact hr rfl
        have hl : laterWords s = words (skipGap (afterWord s)) := by simp [laterWords,hr]
        rw [hl,words_eq_cons (skipGap (afterWord s))]
        by_cases hw : firstWord s ∈ keywords <;> simp [afterKeyword?,hf,hw,ha,hr]

theorem isGap_of_isNameChar {c : Char} (h : isNameChar c = true) : isGap c = false := by
  by_contra hg
  simp only [isGap,Bool.not_eq_false,Bool.or_eq_true,decide_eq_true_eq] at hg
  rcases hg with rfl | rfl <;> revert h <;> decide

theorem isNameChar_of_isNameStart {c : Char} (h : isNameStart c = true) : isNameChar c = true := by
  simp only [isNameStart,isNameChar,Char.isAlphanum,Bool.or_eq_true] at h ⊢
  rcases h with h | h
  · exact Or.inl (Or.inl h)
  · exact Or.inr h

theorem firstWord_cons {c : Char} (r : Text) (h : isGap c = false) :
    firstWord (c :: r) = c :: firstWord r := by
  simp [firstWord,h]

theorem wordName?_firstWord (s : Text) : wordName? (firstWord s) = (name? s).map Prod.fst := by
  cases s with
  | nil => rfl
  | cons c r =>
    by_cases hc : isNameStart c = true
    · have hf := firstWord_cons r (isGap_of_isNameChar (isNameChar_of_isNameStart hc))
      have ht : (firstWord r).takeWhile isNameChar = r.takeWhile isNameChar := by
        rw [firstWord,List.takeWhile_takeWhile]
        congr 1
        funext d
        cases hd : isNameChar d with
        | false => simp
        | true => simp [isGap_of_isNameChar hd]
      simp [hf,wordName?,name?,hc,ht]
    · have hn : name? (c :: r) = none := by simp [name?,hc]
      rw [hn]
      by_cases hg : isGap c = true
      · simp [firstWord,hg,wordName?,name?]
      · simp [firstWord_cons r (by simpa using hg),wordName?,name?,hc]

/-- An ampersand before a name may stand alone. -/
theorem declaredFunction?_words (s : Text) :
    declaredFunction? (firstWord s) (laterWords s) = (name? (afterAmpersand s)).map Prod.fst := by
  rw [← wordName?_firstWord]
  cases s with
  | nil => rfl
  | cons c r =>
    by_cases hc : c = '&'
    · subst hc
      have ha : afterWord ('&' :: r) = afterWord r := by simp [afterWord,isGap]
      have hl : laterWords ('&' :: r) = laterWords r := by rw [laterWords,laterWords,ha]
      have hs : afterAmpersand ('&' :: r) = skipGap r := rfl
      rw [firstWord_cons r rfl,hl,hs]
      cases r with
      | nil => rfl
      | cons d r =>
        by_cases hd : isGap d = true
        · have hf : firstWord (d :: r) = [] := by simp [firstWord,hd]
          have hw : afterWord (d :: r) = d :: r := by simp [afterWord,hd]
          rw [hf,laterWords,hw]
          by_cases he : skipGap (d :: r) = []
          · rw [if_pos he,he]
            rfl
          · rw [if_neg he,words_eq_cons]
            rfl
        · have hs : skipGap (d :: r) = d :: r := by simp [skipGap,hd]
          rw [hs,firstWord_cons r (by simpa using hd)]
          rfl
    · have hs : afterAmpersand (c :: r) = c :: r := by simp [afterAmpersand,hc]
      rw [hs]
      by_cases hg : isGap c = true
      · have hf : firstWord (c :: r) = [] := by simp [firstWord,hg]
        rw [hf]
        rfl
      · rw [firstWord_cons r (by simpa using hg)]
        simp [declaredFunction?,hc]

theorem header?_of_notMem (modifiers keywords : List Text) {line : Text} (h : '\n' ∉ line) :
    header? modifiers keywords line =
      word? keywords (skipWords modifiers line.length (skipGap line)) := by
  rw [header?,lineLength_of_notMem h]

theorem afterKeyword?_lineWords {modifiers keywords : List Text} (hm : WordSet modifiers)
    (hk : WordSet keywords) {line : Text} (h : '\n' ∉ line) :
    afterKeyword? modifiers keywords (lineWords line) =
      (header? modifiers keywords line).bind fun r =>
        if r = [] then none else some (firstWord r,laterWords r) := by
  rw [header?_of_notMem _ _ h,lineWords]
  exact afterKeyword?_words hm hk _ _ (List.dropWhile_suffix isGap).length_le

theorem className?_eq {line : Text} (h : '\n' ∉ line) :
    className? line = (classDeclaration true line).map Prod.fst := by
  rw [className?_eq_bind,afterKeyword?_lineWords wordSet_classModifiers wordSet_classKeywords h,
    classDeclaration_eq]
  cases header? classModifiers classKeywords line with
  | none => rfl
  | some r =>
    by_cases hr : r = []
    · simp [hr,name?]
    · simp [hr,wordName?_firstWord]

theorem functionName?_eq {line : Text} (h : '\n' ∉ line) :
    functionName? line = (functionDeclaration true line).map Prod.fst := by
  rw [functionName?_eq_bind,
    afterKeyword?_lineWords wordSet_functionModifiers wordSet_functionKeywords h,
    functionDeclaration_eq]
  cases header? functionModifiers functionKeywords line with
  | none => rfl
  | some r =>
    by_cases hr : r = []
    · simp [hr,afterAmpersand,name?]
    · simp [hr,declaredFunction?_words]

/-- The first words that are no modifiers differ, so a line declares a class or a function but not
both. -/
theorem afterKeyword?_disjoint {m m' k k' : List Text} (hk : ∀ w ∈ k, w ∉ m' ∧ w ∉ k')
    (hk' : ∀ w ∈ k', w ∉ m) (ws : List Text) :
    afterKeyword? m k ws = none ∨ afterKeyword? m' k' ws = none := by
  induction ws with
  | nil => exact Or.inl rfl
  | cons w ws ih =>
    by_cases hm : w ∈ m
    · by_cases hm' : w ∈ m'
      · simpa [afterKeyword?,hm,hm'] using ih
      · refine Or.inr ?_
        have hw : w ∉ k' := fun h => hk' w h hm
        cases ws <;> simp [afterKeyword?,hm',hw]
    · by_cases hw : w ∈ k
      · refine Or.inr ?_
        obtain ⟨hm',hw'⟩ := hk w hw
        cases ws <;> simp [afterKeyword?,hm',hw']
      · refine Or.inl ?_
        cases ws <;> simp [afterKeyword?,hm,hw]

theorem className?_or_functionName? (line : Text) :
    className? line = none ∨ functionName? line = none := by
  rw [className?_eq_bind,functionName?_eq_bind]
  have hd : afterKeyword? classModifiers classKeywords (lineWords line) = none ∨
      afterKeyword? functionModifiers functionKeywords (lineWords line) = none :=
    afterKeyword?_disjoint (by decide) (by decide) (lineWords line)
  rcases hd with h | h
  · exact Or.inl (by rw [h,Option.bind_none])
  · exact Or.inr (by rw [h,Option.bind_none])

theorem afterKeyword?_of_brace {m k : List Text} (hm : ∀ w ∈ m, w.head? ≠ some '\x7d')
    (hk : ∀ w ∈ k, w.head? ≠ some '\x7d') {line : Text} (h : line.head? = some '\x7d') :
    afterKeyword? m k (lineWords line) = none := by
  cases line with
  | nil => cases h
  | cons c r =>
    have hc : c = '\x7d' := Option.some.inj h
    subst hc
    have hs : skipGap ('\x7d' :: r) = '\x7d' :: r := rfl
    have hf : firstWord ('\x7d' :: r) = '\x7d' :: firstWord r := firstWord_cons r rfl
    have hm' : '\x7d' :: firstWord r ∉ m := fun h => hm _ h rfl
    have hk' : '\x7d' :: firstWord r ∉ k := fun h => hk _ h rfl
    rw [lineWords,hs,words_eq_cons,hf]
    cases laterWords ('\x7d' :: r) <;> simp [afterKeyword?,hm',hk']

theorem names_of_brace {line : Text} (h : line.head? = some '\x7d') :
    className? line = none ∧ functionName? line = none := by
  rw [className?_eq_bind,functionName?_eq_bind,afterKeyword?_of_brace (by decide) (by decide) h,
    afterKeyword?_of_brace (by decide) (by decide) h]
  exact ⟨rfl,rfl⟩

end LineScan
end DocTags
