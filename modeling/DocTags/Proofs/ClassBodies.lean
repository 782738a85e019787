import DocTags.Proofs.CommentGaps

/-! Which functions an index takes for methods. A class is open from its line to the next line with a
closing brace in the first column, whatever the braces of its body; so functions outside of classes are
left out where each body ends in such a line. -/
namespace DocTags

namespace Text

theorem take_eq_append {i j : Nat} (h : i ≤ j) (s : Text) :
    s.take j = s.take i ++ (s.take j).drop i := by
  have hs := List.take_append_drop i (s.take j)
  rw [List.take_take,Nat.min_eq_left h] at hs
  exact hs.symm

theorem exists_line (s : Text) : ∃ l v, s = l ++ v ∧ '\n' ∉ l ∧ StartsBreak v := by
  induction s using line_induction with
  | last l hl => exact ⟨l,[],by simp,hl,by simp [StartsBreak]⟩
  | line l t hl _ => exact ⟨l,'\n' :: t,rfl,hl,by simp [StartsBreak]⟩

end Text

namespace LineScan

open SourcePattern SourceIndex

def IsClassLine (e : Nat × Text) : Prop := ∃ c, landmark? e.2 = some (.classDeclaration c)

def IsFunctionLine (e : Nat × Text) : Prop := ∃ f, landmark? e.2 = some (.functionDeclaration f)

def IsEndLine (e : Nat × Text) : Prop := landmark? e.2 = some .classEnd

def FunctionFirst (ls : List (Nat × Text)) : Prop :=
  ∃ e ∈ ls, IsFunctionLine e ∧ ∀ b ∈ ls, b.1 < e.1 → ¬ IsEndLine b

/-- A function behind a class, without a closing brace between. -/
def FunctionInClass (ls : List (Nat × Text)) : Prop :=
  ∃ d ∈ ls, ∃ e ∈ ls, IsClassLine d ∧ IsFunctionLine e ∧ d.1 < e.1 ∧
    ∀ b ∈ ls, d.1 < b.1 → b.1 < e.1 → ¬ IsEndLine b

section

variable {e : Nat × Text} {ls : List (Nat × Text)} (h : ∀ b ∈ ls, e.1 < b.1)
include h

theorem functionFirst_cons :
    FunctionFirst (e :: ls) ↔ IsFunctionLine e ∨ ¬ IsEndLine e ∧ FunctionFirst ls := by
  constructor
  · rintro ⟨g,hg,hf,hb⟩
    rcases List.mem_cons.mp hg with rfl | hg
    · exact Or.inl hf
    · exact Or.inr ⟨hb e List.mem_cons_self (h g hg),g,hg,hf,
        fun b hm => hb b (List.mem_cons_of_mem e hm)⟩
  · rintro (hf | ⟨he,g,hg,hf,hb⟩)
    · refine ⟨e,List.mem_cons_self,hf,fun b hm hlt => ?_⟩
      rcases List.mem_cons.mp hm with rfl | hm
      · exact absurd hlt (Nat.lt_irrefl _)
      · exact absurd hlt (Nat.lt_asymm (h b hm))
    · refine ⟨g,List.mem_cons_of_mem e hg,hf,fun b hm => ?_⟩
      rcases List.mem_cons.mp hm with rfl | hm
      · exact fun _ => he
      · exact hb b hm

theorem functionInClass_cons :
    FunctionInClass (e :: ls) ↔ IsClassLine e ∧ FunctionFirst ls ∨ FunctionInClass ls := by
  constructor
  · rintro ⟨d,hd,g,hg,hc,hf,hlt,hb⟩
    rcases List.mem_cons.mp hg with rfl | hgl
    · rcases List.mem_cons.mp hd with rfl | hd
      · exact absurd hlt (Nat.lt_irrefl _)
      · exact absurd hlt (Nat.lt_asymm (h d hd))
    · rcases List.mem_cons.mp hd with rfl | hd
      · exact Or.inl ⟨hc,g,hgl,hf,fun b hm => hb b (List.mem_cons_of_mem d hm) (h b hm)⟩
      · exact Or.inr ⟨d,hd,g,hgl,hc,hf,hlt,fun b hm => hb b (List.mem_cons_of_mem e hm)⟩
  · rintro (⟨hc,g,hg,hf,hb⟩ | ⟨d,hd,g,hg,hc,hf,hlt,hb⟩)
    · refine ⟨e,List.mem_cons_self,g,List.mem_cons_of_mem e hg,hc,hf,h g hg,fun b hm heb => ?_⟩
      rcases List.mem_cons.mp hm with rfl | hm
      · exact absurd heb (Nat.lt_irrefl _)
      · exact hb b hm
    · refine ⟨d,List.mem_cons_of_mem e hd,g,List.mem_cons_of_mem e hg,hc,hf,hlt,fun b hm hdb => ?_⟩
      rcases List.mem_cons.mp hm with rfl | hm
      · exact absurd hdb (Nat.lt_asymm (h d hd))
      · exact hb b hm hdb

end

theorem openAfter_ne_none_iff {o : Option Text} {e : Nat × Text} :
    openAfter o e.2 ≠ none ↔ IsClassLine e ∨ o ≠ none ∧ ¬ IsEndLine e := by
  unfold openAfter IsClassLine IsEndLine
  cases landmark? e.2 with
  | none => simp
  | some m => cases m <;> simp

theorem declared?_method_iff {o : Option Text} {e : Nat × Text} :
    (∃ r, declared? o e.2 = some r ∧ r.method ≠ none) ↔ IsFunctionLine e ∧ o ≠ none := by
  unfold declared? IsFunctionLine
  cases landmark? e.2 with
  | none => simp
  | some m => cases m <;> cases o <;> simp

theorem exists_method_cons {o : Option Text} {e : Nat × Text} {ls : List (Nat × Text)} :
    (∃ d ∈ declarations o (e :: ls), d.2.method ≠ none) ↔
      IsFunctionLine e ∧ o ≠ none ∨
        ∃ d ∈ declarations (openAfter o e.2) ls, d.2.method ≠ none := by
  rw [← declared?_method_iff,declarations]
  cases declared? o e.2 with
  | none => simp
  | some r => simp

/-- The methods among the declarations of lines: functions that stand before the end of the class that
is open, and those in the classes of the lines. -/
theorem exists_method_iff {ls : List (Nat × Text)} (h : ls.Pairwise fun a b => a.1 < b.1)
    (o : Option Text) : (∃ d ∈ declarations o ls, d.2.method ≠ none) ↔
      o ≠ none ∧ FunctionFirst ls ∨ FunctionInClass ls := by
  induction ls generalizing o with
  | nil => simp [declarations,FunctionFirst,FunctionInClass]
  | cons e ls ih =>
    obtain ⟨he,hls⟩ := List.pairwise_cons.mp h
    rw [exists_method_cons,ih hls,openAfter_ne_none_iff,functionFirst_cons he,
      functionInClass_cons he]
    tauto

end LineScan

namespace SourceIndex

open SourcePattern LineScan

/-- Between each class and each function behind it stands a line with a closing brace in the first
column. -/
def ClosedBeforeFunctions (s : Text) : Prop :=
  ∀ d ∈ Text.placed 0 s.lines, ∀ e ∈ Text.placed 0 s.lines, ∀ c f,
    DeclaresClass d.2 c → DeclaresFunction e.2 f → d.1 < e.1 →
      ∃ b ∈ Text.placed 0 s.lines, d.1 < b.1 ∧ b.1 < e.1 ∧ b.2.head? = some '\x7d'

theorem not_functionInClass_iff {s : Text} :
    ¬ FunctionInClass (Text.placed 0 s.lines) ↔ ClosedBeforeFunctions s := by
  have hn {e : Nat × Text} (he : e ∈ Text.placed 0 s.lines) : '\n' ∉ e.2 :=
    Text.notMem_of_mem_placed he
  constructor
  · intro h d hd e he c f hc hf hlt
    by_contra hb
    refine h ⟨d,hd,e,he,⟨c,(landmark?_eq_classDeclaration_iff (hn hd)).mpr hc⟩,
      ⟨f,(landmark?_eq_functionDeclaration_iff (hn he)).mpr hf⟩,hlt,fun b hm hdb hbe hend => ?_⟩
    exact hb ⟨b,hm,hdb,hbe,landmark?_eq_classEnd_iff.mp hend⟩
  · rintro h ⟨d,hd,e,he,⟨c,hc⟩,⟨f,hf⟩,hlt,hopen⟩
    obtain ⟨b,hb,hdb,hbe,hbrace⟩ := h d hd e he c f
      ((landmark?_eq_classDeclaration_iff (hn hd)).mp hc)
      ((landmark?_eq_functionDeclaration_iff (hn he)).mp hf) hlt
    exact hopen b hb hdb hbe (landmark?_eq_classEnd_iff.mpr hbrace)

theorem forall_method_eq_none_iff (s : Text) :
    (∀ r ∈ (ofText s).references, r.method = none) ↔ ClosedBeforeFunctions s := by
  have hd : (∀ r ∈ (ofText s).references, r.method = none) ↔
      ¬ ∃ d ∈ declarationsOf s, d.2.method ≠ none := by
    simp only [references_ofText,List.mem_eraseDups,List.forall_mem_map,not_exists,not_and,not_not]
  rw [hd,← not_functionInClass_iff,declarationsOf,
    exists_method_iff (Text.pairwise_placed 0 s.lines)]
  simp

def Balanced (s : Text) : Prop := s.count '\x7b' = s.count '\x7d'

instance (s : Text) : Decidable (Balanced s) :=
  inferInstanceAs (Decidable (s.count '\x7b' = s.count '\x7d'))

/-- The braces of the text match each other. -/
def Matched (s : Text) : Prop :=
  Balanced s ∧ ∀ p, p <+: s → p.count '\x7d' ≤ p.count '\x7b'

theorem matched_iff_take {s : Text} : Matched s ↔
    Balanced s ∧ ∀ n < s.length, (s.take n).count '\x7d' ≤ (s.take n).count '\x7b' := by
  refine ⟨fun h => ⟨h.1,fun n _ => h.2 _ (List.take_prefix n s)⟩,fun h => ⟨h.1,fun p hp => ?_⟩⟩
  rcases Nat.lt_or_ge p.length s.length with hlt | hge
  · have hn := h.2 p.length hlt
    rwa [← List.prefix_iff_eq_take.mp hp] at hn
  · rw [hp.eq_of_length_le hge]
    exact h.1.ge

instance (s : Text) : Decidable (Matched s) := decidable_of_iff _ matched_iff_take.symm

def BalancedAtFunctions (s : Text) : Prop :=
  ∀ e ∈ Text.placed 0 s.lines, ∀ f, DeclaresFunction e.2 f → Balanced (s.take e.1)

/-- How the text from a class to a later place is laid out: no brace before it is closed that was not
opened, the first brace is the opening one of the body, and the one that matches it stands in the first
column. -/
structure LaidOut (s : Text) (i j : Nat) : Prop where
  nested : (s.take i).count '\x7d' ≤ (s.take i).count '\x7b'
  opened : ∃ x y, (s.take j).drop i = x ++ '\x7b' :: y ∧ '\x7b' ∉ x ∧ '\x7d' ∉ x
  firstColumn : ∀ x y z, (s.take j).drop i = x ++ '\x7b' :: (y ++ '\x7d' :: z) →
    '\x7b' ∉ x → '\x7d' ∉ x → Matched y → y.getLast? = some '\n'

def ClassesLaidOut (s : Text) : Prop :=
  ∀ d ∈ Text.placed 0 s.lines, ∀ e ∈ Text.placed 0 s.lines, ∀ c f,
    DeclaresClass d.2 c → DeclaresFunction e.2 f → d.1 < e.1 → LaidOut s d.1 e.1

/-- Where `k` braces are open before a text, some closing brace of it closes the last of them. -/
def ClosesOpen (k : Nat) (s : Text) : Prop :=
  ∃ y z, s = y ++ '\x7d' :: z ∧ y.count '\x7d' = y.count '\x7b'+k ∧
    ∀ p, p <+: y → p.count '\x7d' ≤ p.count '\x7b'+k

theorem ClosesOpen.cons {c : Char} {s : Text} {k n : Nat} (h : ClosesOpen n s)
    (hc : [c].count '\x7d'+n = [c].count '\x7b'+k) : ClosesOpen k (c :: s) := by
  obtain ⟨y,z,rfl,hy,hp⟩ := h
  refine ⟨c :: y,z,rfl,?_,fun p hpy => ?_⟩
  · simp only [List.count_cons,List.count_nil] at hc ⊢
    omega
  · rcases List.prefix_cons_iff.mp hpy with rfl | ⟨q,rfl,hq⟩
    · simp
    · have hh := hp q hq
      simp only [List.count_cons,List.count_nil] at hc ⊢
      omega

theorem closesOpen_of_count {s : Text} {k : Nat} (h : s.count '\x7b'+k < s.count '\x7d') :
    ClosesOpen k s := by
  induction s generalizing k with
  | nil => cases h
  | cons c s ih =>
    by_cases hclose : c = '\x7d'
    · subst hclose
      have hcount : s.count '\x7b'+k < s.count '\x7d'+1 := by simpa using h
      cases k with
      | zero => exact ⟨[],s,rfl,rfl,fun p hp => by simp [List.prefix_nil.mp hp]⟩
      | succ k => exact (ih (show s.count '\x7b'+k < _ by omega)).cons (by simp; omega)
    · by_cases hopen : c = '\x7b'
      · subst hopen
        have hcount : s.count '\x7b'+1+k < s.count '\x7d' := by simpa using h
        exact (ih (show s.count '\x7b'+(k+1) < _ by omega)).cons (by simp; omega)
      · have hcount : s.count '\x7b'+k < s.count '\x7d' := by simpa [hclose,hopen] using h
        exact (ih hcount).cons (by simp [hclose,hopen])

theorem exists_matched {s : Text} (h : s.count '\x7b' < s.count '\x7d') :
    ∃ y z, s = y ++ '\x7d' :: z ∧ Matched y := by
  obtain ⟨y,z,hs,hb,hp⟩ : ClosesOpen 0 s := closesOpen_of_count h
  exact ⟨y,z,hs,hb.symm,hp⟩

theorem Matched.length_le {y z y' z' : Text} (hy : Matched y) (hy' : Matched y')
    (h : y ++ '\x7d' :: z = y' ++ '\x7d' :: z') : y'.length ≤ y.length := by
  by_contra hlt
  have hwhole : y ++ ['\x7d'] <+: y' ++ '\x7d' :: z' := ⟨z,by rw [← h]; simp⟩
  have hp : y ++ ['\x7d'] <+: y' := by
    refine List.prefix_of_prefix_length_le hwhole (List.prefix_append _ _) ?_
    rw [List.length_append]
    exact Nat.lt_of_not_le hlt
  have hcount := hy'.2 _ hp
  have hb : y.count '\x7b' = y.count '\x7d' := hy.1
  simp only [List.count_append,List.count_singleton_self] at hcount
  rw [List.count_singleton,if_neg (by decide)] at hcount
  omega

theorem Matched.eq_of_append {y z y' z' : Text} (hy : Matched y) (hy' : Matched y')
    (h : y ++ '\x7d' :: z = y' ++ '\x7d' :: z') : y = y' :=
  (List.append_inj h (Nat.le_antisymm (hy'.length_le hy h.symm) (hy.length_le hy' h))).1

theorem laidOut_of_body {s x y z : Text} {i j : Nat}
    (hs : (s.take j).drop i = x ++ '\x7b' :: (y ++ '\x7d' :: z))
    (hn : (s.take i).count '\x7d' ≤ (s.take i).count '\x7b') (hxo : '\x7b' ∉ x) (hxc : '\x7d' ∉ x)
    (hy : Matched y) (hl : y.getLast? = some '\n') : LaidOut s i j where
  nested := hn
  opened := ⟨x,_,hs,hxo,hxc⟩
  firstColumn := by
    intro x' y' z' hs' hxo' _ hy'
    have hcut := Text.cut?_singleton_eq_some_iff.mpr ⟨hs,hxo⟩
    rw [Text.cut?_singleton_eq_some_iff.mpr ⟨hs',hxo'⟩] at hcut
    have hbody := (Prod.mk.inj (Option.some.inj hcut)).2
    exact (hy'.eq_of_append hy hbody).symm ▸ hl

theorem exists_braceLine {s x y : Text} (hs : s = x ++ '\x7d' :: y) (hx : EndsLines x) :
    ∃ b ∈ Text.placed 0 s.lines, b.1 = x.length ∧ b.2.head? = some '\x7d' := by
  obtain ⟨l,v,hl,hn,hv⟩ := Text.exists_line ('\x7d' :: y)
  refine ⟨(x.length,l),Text.mem_placed_iff.mpr ⟨hn,x,v,by rw [hs,hl],rfl,hx,hv⟩,rfl,?_⟩
  cases l with
  | nil =>
    rw [List.nil_append] at hl
    exact absurd (hv '\x7d' (by rw [← hl]; rfl)) (by decide)
  | cons c l =>
    obtain ⟨rfl,-⟩ := List.cons.inj hl
    rfl

theorem LaidOut.exists_body {s : Text} {i j : Nat} (h : LaidOut s i j) (hij : i ≤ j)
    (hb : Balanced (s.take j)) : ∃ x y z, (s.take j).drop i = x ++ '\x7b' :: (y ++ '\x7d' :: z) ∧
      y.getLast? = some '\n' := by
  obtain ⟨x,t,ht,hxo,hxc⟩ := h.opened
  have hs : s.take j = s.take i ++ (x ++ '\x7b' :: t) := by rw [Text.take_eq_append hij,ht]
  have hnested := h.nested
  have hmore : t.count '\x7b' < t.count '\x7d' := by
    have hxo' := List.count_eq_zero.mpr hxo
    have hxc' := List.count_eq_zero.mpr hxc
    simp only [Balanced,hs,List.count_append,hxo',hxc',List.count_cons_self] at hb
    rw [List.count_cons_of_ne (by decide)] at hb
    omega
  obtain ⟨y,z,rfl,hy⟩ := exists_matched hmore
  exact ⟨x,y,z,ht,h.firstColumn x y z ht hxo hxc hy⟩

theorem ClassesLaidOut.closedBeforeFunctions {s : Text} (h : ClassesLaidOut s)
    (hb : BalancedAtFunctions s) : ClosedBeforeFunctions s := by
  intro d hd e he c f hc hf hlt
  obtain ⟨x,y,z,ht,hlast⟩ :=
    (h d hd e he c f hc hf hlt).exists_body (Nat.le_of_lt hlt) (hb e he f hf)
  have htake : s.take e.1 = (s.take d.1 ++ (x ++ '\x7b' :: y)) ++ '\x7d' :: z := by
    rw [Text.take_eq_append (Nat.le_of_lt hlt),ht]
    simp
  have hs : s = (s.take d.1 ++ (x ++ '\x7b' :: y)) ++ '\x7d' :: (z ++ s.drop e.1) := by
    have hsplit := List.take_append_drop e.1 s
    rw [htake] at hsplit
    rw [← List.cons_append,← List.append_assoc,hsplit]
  have hends : EndsLines (s.take d.1 ++ (x ++ '\x7b' :: y)) := by
    intro k hk
    rw [List.getLast?_append,List.getLast?_append,List.getLast?_cons,hlast] at hk
    exact (Option.some.inj hk).symm
  obtain ⟨b,hbm,hbx,hbl⟩ := exists_braceLine hs hends
  have hdl := Text.le_length_of_mem_placed hd
  have hdt : (s.take d.1).length = d.1 := List.length_take_of_le (by omega)
  have hl := congrArg List.length htake
  have hle := List.length_take_le e.1 s
  simp only [List.length_append,List.length_cons,hdt] at hbx hl
  exact ⟨b,hbm,by omega,by omega,hbl⟩

/-- No function is taken for a method exactly if between each class and each function behind it a line
starts with a closing brace. So it is where the braces before each function are balanced, if the body of
each class before it ends with a brace in the first column. -/
theorem functions_outside_classes (s : Text) :
    ((∀ r ∈ (ofText s).references, r.method = none) ↔ ClosedBeforeFunctions s) ∧
      (BalancedAtFunctions s → ClassesLaidOut s → ∀ r ∈ (ofText s).references, r.method = none) :=
  ⟨forall_method_eq_none_iff s,fun hb hl =>
    (forall_method_eq_none_iff s).mpr (hl.closedBeforeFunctions hb)⟩

def braceInBody : Text := "class A\n\x7b\n    use T \x7b f as g; \x7d\n\x7d\n".toList

def functionsBehind : Text := braceInBody ++ "function f() \x7b\x7d\nfunction g() \x7b\x7d\n".toList

theorem place_of_function_behind {e : Nat × Text} (he : e ∈ Text.placed 0 functionsBehind.lines)
    {f : Text} (h : DeclaresFunction e.2 f) : e.1 = 34 ∨ e.1 = 50 := by
  have hall : ∀ e ∈ Text.placed 0 functionsBehind.lines, (functionName? e.2).isSome →
      e.1 = 34 ∨ e.1 = 50 := by decide
  exact hall e he (by rw [(functionName?_eq_some_iff (Text.notMem_of_mem_placed he)).mpr h]; rfl)

theorem methods_of_functionsBehind :
    BalancedAtFunctions functionsBehind ∧ ClassesLaidOut functionsBehind ∧
      ∀ r ∈ (ofText functionsBehind).references, r.method = none := by
  have hb : BalancedAtFunctions functionsBehind := by
    intro e he f hf
    rcases place_of_function_behind he hf with h | h <;> rw [h] <;> decide
  have hl : ClassesLaidOut functionsBehind := by
    intro d hd e he c f hc hf _
    have hclass : ∀ d ∈ Text.placed 0 functionsBehind.lines, (className? d.2).isSome → d.1 = 0 := by
      decide
    have hd0 : d.1 = 0 :=
      hclass d hd (by rw [(className?_eq_some_iff (Text.notMem_of_mem_placed hd)).mpr hc]; rfl)
    have hy : Matched "\n    use T \x7b f as g; \x7d\n".toList := by decide
    rw [hd0]
    rcases place_of_function_behind he hf with h | h <;> rw [h]
    · exact laidOut_of_body (x := "class A\n".toList) (z := "\n".toList) rfl (by decide) (by decide)
        (by decide) hy rfl
    · exact laidOut_of_body (x := "class A\n".toList) (z := "\nfunction f() \x7b\x7d\n".toList) rfl
        (by decide) (by decide) (by decide) hy rfl
  exact ⟨hb,hl,(functions_outside_classes _).2 hb hl⟩

def BareCode (s : Text) : Prop :=
  '\x22' ∉ s ∧ '\x27' ∉ s ∧ '#' ∉ s ∧ ¬ "//".toList <:+: s ∧ ¬ "/*".toList <:+: s

def classInLine : Text := "class A \x7b\x7d\nfunction f() \x7b\x7d\n".toList

/-- The class in one line stays open, so the function behind it is a method. -/
theorem method_behind_classInLine :
    BareCode classInLine ∧ BalancedAtFunctions classInLine ∧
      ⟨['A'],some ['f']⟩ ∈ (ofText classInLine).references := by
  refine ⟨⟨by decide,by decide,by decide,Text.notInfix_iff_cut?.mpr (by decide),
    Text.notInfix_iff_cut?.mpr (by decide)⟩,?_,?_⟩
  · intro e he f _
    have hall : ∀ e ∈ Text.placed 0 classInLine.lines, Balanced (classInLine.take e.1) := by decide
    exact hall e he
  · rw [ofText_eq_index]
    decide

end SourceIndex
end DocTags
