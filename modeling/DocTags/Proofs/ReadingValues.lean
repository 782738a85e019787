import DocTags.Proofs.ValueGrammar

/-! Reading undoes writing: the reader takes any text of the grammar, with any blanks in it, back to the
value that it was written for. -/
namespace DocTags
namespace ValueReader

open Value

theorem skipSpace_append {g : Text} (hg : Spaces g) (s : Text) : skipSpace (g ++ s) = skipSpace s :=
  List.dropWhile_append_of_pos hg

theorem skipSpace_append_cons {g : Text} {c : Char} (hg : Spaces g) (hc : isSpace c = false)
    (s : Text) : skipSpace (g ++ c :: s) = c :: s := by
  rw [skipSpace_append hg]
  simp [skipSpace,hc]

theorem readValue?_append {g : Text} (hg : Spaces g) (fuel depth : Nat) (s : Text) :
    readValue? fuel depth (g ++ s) = readValue? fuel depth s := by
  cases fuel with
  | zero => rfl
  | succ fuel => simp only [readValue?,skipSpace_append hg]

theorem readKey?_write {g : Text} (hg : Spaces g) (k s : Text) :
    readKey? (k.flatMap QuotedText.escape ++ '"' :: (g ++ ':' :: s)) = some (k,s) := by
  simp only [readKey?,QuotedText.read?_write,Option.bind_eq_bind,Option.bind_some,
    skipSpace_append_cons hg (c := ':') rfl]

section

variable {fuel depth : Nat} {s t r u : Text} {k : Text} {v : Value} {vs : List Value}
  {fs : List (Text × Value)}

theorem readValue?_string (h : QuotedText.read? s = some (k,r)) :
    readValue? (fuel+1) depth ('"' :: s) = some (.string k,r) := by
  show (QuotedText.read? s).map (fun p => (Value.string p.1,p.2)) = _
  rw [h]
  rfl

theorem readValue?_emptyList (h : skipSpace s = ']' :: r) :
    readValue? (fuel+1) (depth+1) ('[' :: s) = some (.list [],r) := by
  have hs : skipSpace ('[' :: s) = '[' :: s := rfl
  rw [readValue?,hs]
  simp [h]

theorem readValue?_list {c : Char} (h : skipSpace s = c :: t) (hc : c ≠ ']')
    (hv : readValue? fuel depth (c :: t) = some (v,r))
    (hvs : readItems? fuel depth r = some (vs,u)) :
    readValue? (fuel+1) (depth+1) ('[' :: s) = some (.list (v :: vs),u) := by
  have hs : skipSpace ('[' :: s) = '[' :: s := rfl
  rw [readValue?,hs]
  simp [h,hc,hv,hvs]

theorem readValue?_emptyObject (h : skipSpace s = '\x7d' :: r) :
    readValue? (fuel+1) (depth+1) ('\x7b' :: s) = some (.object [],r) := by
  have hs : skipSpace ('\x7b' :: s) = '\x7b' :: s := rfl
  rw [readValue?,hs]
  simp [h]

theorem readValue?_object {w : Text} (h : skipSpace s = '"' :: t) (hk : readKey? t = some (k,r))
    (hv : readValue? fuel depth r = some (v,w)) (hfs : readFields? fuel depth w = some (fs,u)) :
    readValue? (fuel+1) (depth+1) ('\x7b' :: s) =
      some (.object (KeyedList.ofPairs ((k,v) :: fs)),u) := by
  have hs : skipSpace ('\x7b' :: s) = '\x7b' :: s := rfl
  rw [readValue?,hs]
  simp [h,hk,hv,hfs]

theorem readItems?_done (h : skipSpace s = ']' :: r) :
    readItems? (fuel+1) depth s = some ([],r) := by
  simp [readItems?,h]

theorem readItems?_more (h : skipSpace s = ',' :: t) (hv : readValue? fuel depth t = some (v,r))
    (hvs : readItems? fuel depth r = some (vs,u)) :
    readItems? (fuel+1) depth s = some (v :: vs,u) := by
  simp [readItems?,h,hv,hvs]

theorem readFields?_done (h : skipSpace s = '\x7d' :: r) :
    readFields? (fuel+1) depth s = some ([],r) := by
  simp [readFields?,h]

theorem readFields?_more {w x : Text} (h : skipSpace s = ',' :: t) (hq : skipSpace t = '"' :: w)
    (hk : readKey? w = some (k,r)) (hv : readValue? fuel depth r = some (v,x))
    (hfs : readFields? fuel depth x = some (fs,u)) :
    readFields? (fuel+1) depth s = some ((k,v) :: fs,u) := by
  simp [readFields?,h,hq,hk,hv,hfs]

end

def startsNumber (c : Char) : Bool := c.isDigit || c = '-'

theorem isSpace_of_startsNumber {c : Char} (hc : startsNumber c = true) : isSpace c = false := by
  by_contra hs
  simp only [isSpace,Bool.not_eq_false,Bool.or_eq_true,decide_eq_true_eq] at hs
  rcases hs with ((rfl | rfl) | rfl) | rfl <;> revert hc <;> decide

/-- A digit or a sign starts nothing but a number. -/
theorem readValue?_number {c : Char} (hc : startsNumber c = true) (fuel depth : Nat) (s : Text) :
    readValue? (fuel+1) depth (c :: s) = NumberText.read? (c :: s) := by
  have hs : skipSpace (c :: s) = c :: s := by simp [skipSpace,isSpace_of_startsNumber hc]
  rw [readValue?,hs]
  split
  case h_7 => rfl
  all_goals
    rename_i h
    rw [(List.cons.inj h).1] at hc
    cases hc

theorem exists_write_eq_cons (n : Int) :
    ∃ c s, NumberText.write n = c :: s ∧ startsNumber c = true := by
  cases n with
  | ofNat n =>
    cases hc : Nat.toDigits 10 n with
    | nil => exact absurd hc Nat.toDigits_ne_nil
    | cons c s =>
      have hd : c.isDigit = true := NumberText.isDigit_of_mem_toDigits (n := n) (by simp [hc])
      exact ⟨c,s,hc,by simp [startsNumber,hd]⟩
  | negSucc n => exact ⟨'-',_,rfl,rfl⟩

end ValueReader

namespace Value

open ValueReader

theorem Written.exists_cons {v : Value} {t : Text} (h : Written v t) :
    ∃ c s, t = c :: s ∧ isSpace c = false ∧ c ≠ ']' := by
  cases h with
  | int hn =>
    obtain ⟨c,s,hw,hc⟩ := exists_write_eq_cons _
    refine ⟨c,s,hw,isSpace_of_startsNumber hc,?_⟩
    rintro rfl
    cases hc
  | _ => exact ⟨_,_,rfl,rfl,by decide⟩

theorem endsNumber_of_spaces {g : Text} (hg : Spaces g) : NumberText.EndsNumber g := by
  intro c hc
  have hs := hg c (List.mem_of_head? hc)
  simp only [isSpace,Bool.or_eq_true,decide_eq_true_eq] at hs
  rcases hs with ((rfl | rfl) | rfl) | rfl <;> decide

theorem endsNumber_append_cons {g s : Text} {c : Char} (hg : Spaces g)
    (hc : c = ',' ∨ c = ']' ∨ c = '\x7d') : NumberText.EndsNumber (g ++ c :: s) := by
  intro d hd
  cases g with
  | nil =>
    obtain rfl := Option.some.inj hd
    rcases hc with rfl | rfl | rfl <;> decide
  | cons e g => exact endsNumber_of_spaces hg d hd

theorem WrittenItems.endsNumber {vs : List Value} {u : Text} (h : WrittenItems vs u) (r : Text) :
    NumberText.EndsNumber (u ++ r) := by
  cases h with
  | done hg => simpa using endsNumber_append_cons hg (by simp)
  | more hg => simpa using endsNumber_append_cons hg (by simp)

theorem WrittenFields.endsNumber {fs : List (Text × Value)} {u : Text} (h : WrittenFields fs u)
    (r : Text) : NumberText.EndsNumber (u ++ r) := by
  cases h with
  | done hg => simpa using endsNumber_append_cons hg (by simp)
  | more hg => simpa using endsNumber_append_cons hg (by simp)

end Value

namespace ValueReader

open Value

/-- So many steps are enough to read texts that are shorter. -/
structure ReadsBack (fuel : Nat) : Prop where
  value : ∀ {v : Value} {t r : Text} {d : Nat}, Written v t → v.depth ≤ d → t.length < fuel →
    NumberText.EndsNumber r → readValue? fuel d (t ++ r) = some (v,r)
  items : ∀ {vs : List Value} {u r : Text} {d : Nat}, WrittenItems vs u →
    itemsDepth vs ≤ d → u.length < fuel → readItems? fuel d (u ++ r) = some (vs,r)
  fields : ∀ {fs : List (Text × Value)} {u r : Text} {d : Nat}, WrittenFields fs u →
    fieldsDepth fs ≤ d → u.length < fuel → readFields? fuel d (u ++ r) = some (fs,r)

theorem readsBack_zero : ReadsBack 0 where
  value := fun _ _ h => absurd h (Nat.not_lt_zero _)
  items := fun _ _ h => absurd h (Nat.not_lt_zero _)
  fields := fun _ _ h => absurd h (Nat.not_lt_zero _)

theorem exists_succ_of_depth_le {v : Value} {m depth : Nat} (hv : v.depth = m+1)
    (hd : v.depth ≤ depth) : ∃ n, depth = n+1 :=
  ⟨depth-1,by omega⟩

theorem fieldText_append (k g g' t s : Text) :
    fieldText k g g' t ++ s =
      '"' :: (k.flatMap QuotedText.escape ++ '"' :: (g ++ ':' :: (g' ++ (t ++ s)))) := by
  simp [fieldText,QuotedText.write]

section

variable {fuel : Nat} (ih : ReadsBack fuel)
include ih

theorem ReadsBack.value_succ {v : Value} {t r : Text} {depth : Nat} (h : Written v t)
    (hd : v.depth ≤ depth) (hl : t.length < fuel+1) (hr : NumberText.EndsNumber r) :
    readValue? (fuel+1) depth (t ++ r) = some (v,r) := by
  cases h with
  | null => rfl
  | yes => rfl
  | no => rfl
  | int hn =>
    obtain ⟨c,s,hw,hc⟩ := exists_write_eq_cons _
    have hh := NumberText.read?_write hn hr
    rw [hw] at hh ⊢
    exact (readValue?_number hc fuel depth _).trans hh
  | string s =>
    have hh := QuotedText.read?_write s r
    simpa [QuotedText.write] using readValue?_string hh
  | emptyList hg =>
    obtain ⟨n,rfl⟩ := exists_succ_of_depth_le (v := list []) rfl hd
    apply readValue?_emptyList
    simpa using skipSpace_append_cons hg (c := ']') rfl r
  | @list v vs g t u hg hv hvs =>
    obtain ⟨n,rfl⟩ := exists_succ_of_depth_le (v := list (v :: vs)) rfl hd
    -- the first item must not be taken for the end of the list
    obtain ⟨c,s,rfl,hc,hb⟩ := hv.exists_cons
    simp only [Value.depth,itemsDepth,List.length_cons,List.length_append] at hd hl
    have hs := skipSpace_append_cons hg hc (s ++ (u ++ r))
    have hv' := ih.value hv (d := n) (by omega) (by simp only [List.length_cons]; omega)
      (hvs.endsNumber r)
    have hvs' := ih.items hvs (r := r) (d := n) (by omega) (by omega)
    simpa using readValue?_list hs hb hv' hvs'
  | emptyObject hg =>
    obtain ⟨n,rfl⟩ := exists_succ_of_depth_le (v := object []) rfl hd
    apply readValue?_emptyObject
    simpa using skipSpace_append_cons hg (c := '\x7d') rfl r
  | @object k v fs g g₁ g₂ t u hn hg h₁ h₂ hv hfs =>
    obtain ⟨n,rfl⟩ := exists_succ_of_depth_le (v := object ((k,v) :: fs)) rfl hd
    simp only [Value.depth,fieldsDepth,List.length_cons,List.length_append,fieldText] at hd hl
    have hs := skipSpace_append_cons hg (c := '"') rfl
      (k.flatMap QuotedText.escape ++ '"' :: (g₁ ++ ':' :: (g₂ ++ (t ++ (u ++ r)))))
    have hv' := ih.value hv (d := n) (by omega) (by omega) (hfs.endsNumber r)
    rw [← readValue?_append h₂] at hv'
    have hfs' := ih.fields hfs (r := r) (d := n) (by omega) (by omega)
    have hh := readValue?_object hs (readKey?_write h₁ k _) hv' hfs'
    rw [KeyedList.ofPairs_of_nodup hn] at hh
    simpa [fieldText_append] using hh

theorem ReadsBack.items_succ {vs : List Value} {u r : Text} {depth : Nat} (h : WrittenItems vs u)
    (hd : itemsDepth vs ≤ depth) (hl : u.length < fuel+1) :
    readItems? (fuel+1) depth (u ++ r) = some (vs,r) := by
  cases h with
  | done hg =>
    apply readItems?_done
    simpa using skipSpace_append_cons hg (c := ']') rfl r
  | @more v vs g g' t u hg hg' hv hvs =>
    simp only [itemsDepth,List.length_cons,List.length_append] at hd hl
    have hs := skipSpace_append_cons hg (c := ',') rfl (g' ++ (t ++ (u ++ r)))
    have hv' := ih.value hv (d := depth) (by omega) (by omega) (hvs.endsNumber r)
    rw [← readValue?_append hg'] at hv'
    have hvs' := ih.items hvs (r := r) (d := depth) (by omega) (by omega)
    simpa using readItems?_more hs hv' hvs'

theorem ReadsBack.fields_succ {fs : List (Text × Value)} {u r : Text} {depth : Nat}
    (h : WrittenFields fs u) (hd : fieldsDepth fs ≤ depth) (hl : u.length < fuel+1) :
    readFields? (fuel+1) depth (u ++ r) = some (fs,r) := by
  cases h with
  | done hg =>
    apply readFields?_done
    simpa using skipSpace_append_cons hg (c := '\x7d') rfl r
  | @more k v fs g g' g₁ g₂ t u hg hg' h₁ h₂ hv hfs =>
    simp only [fieldsDepth,List.length_cons,List.length_append,fieldText] at hd hl
    have hq := skipSpace_append_cons hg' (c := '"') rfl
      (k.flatMap QuotedText.escape ++ '"' :: (g₁ ++ ':' :: (g₂ ++ (t ++ (u ++ r)))))
    have hs := skipSpace_append_cons hg (c := ',') rfl (g' ++ '"' ::
      (k.flatMap QuotedText.escape ++ '"' :: (g₁ ++ ':' :: (g₂ ++ (t ++ (u ++ r))))))
    have hv' := ih.value hv (d := depth) (by omega) (by omega) (hfs.endsNumber r)
    rw [← readValue?_append h₂] at hv'
    have hfs' := ih.fields hfs (r := r) (d := depth) (by omega) (by omega)
    simpa [fieldText_append] using readFields?_more hs hq (readKey?_write h₁ k _) hv' hfs'

end

/-- Every step of the reader takes a character at least, so the length of a text bounds them. -/
theorem readsBack (fuel : Nat) : ReadsBack fuel := by
  induction fuel with
  | zero => exact readsBack_zero
  | succ fuel ih => exact ⟨ih.value_succ,ih.items_succ,ih.fields_succ⟩

end ValueReader

namespace Value

open ValueReader

theorem decode?_of_written {v : Value} {t g : Text} {depth : Nat} (h : Written v t)
    (hd : v.depth ≤ depth) (hg : Spaces g) : decode? depth (t ++ g) = some v := by
  have hl : t.length < (t ++ g).length+1 := by
    rw [List.length_append]
    omega
  have hh := (readsBack _).value h hd hl (endsNumber_of_spaces hg)
  have hs : skipSpace g = [] := List.dropWhile_eq_nil_iff.mpr hg
  rw [decode?,hh]
  simp [hs]

theorem decode?_compact {v : Value} {depth : Nat} (h : v.exact = true) (hd : v.depth ≤ depth) :
    decode? depth v.compact = some v := by
  simpa using decode?_of_written (written_compact h) hd spaces_nil

/-- Only null has the text of null, so the rule for it does not come in the way. -/
theorem ofText_compact {v : Value} (h : v.exact = true) (hd : v.depth ≤ depthLimit) :
    ofText v.compact = v := by
  have hh := decode?_compact h hd
  by_cases hn : v = null
  · subst hn
    rfl
  · have hne : v.compact ≠ "null".toList := by
      intro he
      rw [he] at hh
      exact hn (Option.some.inj hh).symm
    obtain ⟨c,s,hc,-⟩ := (written_compact h).exists_cons
    have hem : v.compact ≠ [] := by simp [hc]
    simp only [ofText,hh]
    split
    · rename_i he
      exact absurd (by simpa [hem] using he) hne
    · cases v with
      | null => exact absurd rfl hn
      | _ => rfl

end Value
end DocTags
