import DocTags.Proofs.DocSpans

/-! The doc comments of two texts one after the other. If no comment of the first is left open and it
ends a line, the search starts anew at the second. -/
namespace DocTags
namespace SourcePattern

/-- No opening delimiter is left unclosed: each stands before the end of some doc comment. -/
def Closed (s : Text) : Prop :=
  ∀ a t, s = a ++ (docOpen ++ t) → ∃ m ∈ findAll docComment s, a.length < m.stop

def EndsLines (s : Text) : Prop := ∀ c, s.getLast? = some c → c = '\n'

def Match.shift {α : Type} (n : Nat) (m : Match α) : Match α := ⟨n+m.start,n+m.stop,m.found⟩

theorem docSpans_add (n i : Nat) (s : Text) :
    docSpans (n+i) s = (docSpans i s).map (Match.shift n) := by
  induction hl : s.length using Nat.strongRecOn generalizing i s with
  | ind k ih =>
    cases hc : cutComment? s with
    | none => rw [docSpans_of_none hc,docSpans_of_none hc,List.map_nil]
    | some p =>
      obtain ⟨a,b,t⟩ := p
      have hi : n+i+a.length = n+(i+a.length) := Nat.add_assoc ..
      rw [docSpans_of_some hc,docSpans_of_some hc,hi,Nat.add_assoc n,List.map_cons,
        ih t.length (hl ▸ length_lt_of_cutComment? hc) _ t rfl]
      rfl

theorem docSpans_length (n : Nat) (s : Text) :
    docSpans n s = (docSpans 0 s).map (Match.shift n) :=
  docSpans_add n 0 s

theorem pos_of_mem_docSpans {s : Text} {m : Match Text} (h : m ∈ docSpans 0 s) : 0 < m.stop := by
  obtain ⟨a,t,-,-,hstop⟩ := slice_of_mem_docSpans h
  rw [hstop]
  simp only [docOpen,List.length_append,String.length_toList]
  have ho : 0 < "/**".length := by decide
  omega

theorem le_length_of_mem_docSpans {s : Text} {m : Match Text} (h : m ∈ docSpans 0 s) :
    m.stop ≤ s.length := by
  obtain ⟨a,t,hs,-,hstop⟩ := slice_of_mem_docSpans h
  have hp : a ++ (docOpen ++ (m.found ++ docClose)) <+: s := ⟨t,hs.symm⟩
  rw [hstop]
  exact hp.length_le

theorem EndsLines.of_append {s t : Text} (h : EndsLines (s ++ t)) : EndsLines t := by
  intro c hc
  refine h c ?_
  rw [List.getLast?_append,hc]
  rfl

theorem EndsLines.eq_nil_or {v : Text} (h : EndsLines v) : v = [] ∨ ∃ w, v = w ++ ['\n'] := by
  rcases List.eq_nil_or_concat' v with rfl | ⟨w,c,rfl⟩
  · exact Or.inl rfl
  · exact Or.inr ⟨w,by rw [h c (by simp)]⟩

theorem cutComment?_append {s a b t : Text} (h : cutComment? s = some (a,b,t)) (u : Text) :
    cutComment? (s ++ u) = some (a,b,t ++ u) := by
  obtain ⟨⟨a',r⟩,ha,hr⟩ := Option.bind_eq_some_iff.mp h
  obtain ⟨⟨b',t'⟩,hb,he⟩ := Option.map_eq_some_iff.mp hr
  obtain ⟨rfl,rfl,rfl⟩ : a' = a ∧ b' = b ∧ t' = t := by simpa using he
  rw [cutComment?,Text.cut?_append ha u,Option.bind_some]
  simp only [Text.cut?_append hb u,Option.map_some]

section

variable {s : Text}

theorem closed_iff_of_none (h : cutComment? s = none) : Closed s ↔ ¬ docOpen <:+: s := by
  rw [Closed,findAll_docComment,docSpans_of_none h]
  constructor
  · rintro hs ⟨a,t,rfl⟩
    obtain ⟨m,hm,-⟩ := hs a t (List.append_assoc ..)
    cases hm
  · rintro hs a t rfl
    exact absurd ⟨a,t,List.append_assoc ..⟩ hs

theorem closed_iff_of_some {a b t : Text} (h : cutComment? s = some (a,b,t)) :
    Closed s ↔ Closed t := by
  have heq : s = a ++ (docOpen ++ (b ++ docClose)) ++ t := by
    rw [eq_append_of_cutComment? h]
    simp only [List.append_assoc]
  have hd : docSpans 0 s = ⟨a.length,(a ++ (docOpen ++ (b ++ docClose))).length,b⟩ ::
      (docSpans 0 t).map (Match.shift (a ++ (docOpen ++ (b ++ docClose))).length) := by
    rw [docSpans_of_some h,docSpans_length (0+a.length+_),Nat.zero_add,← List.length_append]
  rw [Closed,Closed,findAll_docComment,findAll_docComment,hd]
  generalize a ++ (docOpen ++ (b ++ docClose)) = pre at heq
  constructor
  · rintro hs x y rfl
    obtain ⟨m,hm,hl⟩ := hs (pre ++ x) y (by rw [heq]; simp only [List.append_assoc])
    rw [List.length_append] at hl
    rcases List.mem_cons.mp hm with rfl | hm
    · exact absurd hl (by simp)
    · obtain ⟨m',hm',rfl⟩ := List.mem_map.mp hm
      exact ⟨m',hm',Nat.lt_of_add_lt_add_left hl⟩
  · intro ht x y hxy
    rcases Nat.lt_or_ge x.length pre.length with hx | hx
    · exact ⟨_,List.mem_cons_self,hx⟩
    · obtain ⟨x',rfl⟩ : pre <+: x :=
        List.prefix_of_prefix_length_le ⟨t,heq.symm⟩ ⟨docOpen ++ y,hxy.symm⟩ hx
      rw [heq,List.append_assoc,List.append_cancel_left_eq] at hxy
      obtain ⟨m,hm,hl⟩ := ht x' y hxy
      refine ⟨m.shift pre.length,List.mem_cons_of_mem _ (List.mem_map.mpr ⟨m,hm,rfl⟩),?_⟩
      rw [List.length_append]
      exact Nat.add_lt_add_left hl _

/-- An opening delimiter holds no line feed, so none starts in a text that ends a line and goes on
behind it. -/
theorem isPrefixOf?_docOpen_append {c : Char} {r : Text} (hn : ¬ docOpen <:+: c :: r)
    (he : EndsLines (c :: r)) (t : Text) : docOpen.isPrefixOf? (c :: r ++ t) = none := by
  refine Option.eq_none_iff_forall_ne_some.mpr fun u hu => ?_
  rcases List.append_eq_append_iff.mp (List.isPrefixOf?_eq_some_iff_append_eq.mp hu) with
    ⟨v,hv,-⟩ | ⟨v,hv,-⟩
  · exact hn ⟨[],v,hv.symm⟩
  · obtain ⟨d,hd⟩ : ∃ d, (c :: r).getLast? = some d := ⟨_,List.getLast?_cons⟩
    have hm : d ∈ docOpen := by
      rw [hv]
      exact List.mem_append_left _ (List.mem_of_getLast? hd)
    rw [he d hd] at hm
    revert hm
    decide

theorem docSpans_append_of_notInfix {s : Text} (hn : ¬ docOpen <:+: s) (he : EndsLines s) (i : Nat)
    (t : Text) : docSpans i (s ++ t) = docSpans (i+s.length) t := by
  induction s generalizing i with
  | nil => rfl
  | cons c r ih =>
    have hi : i+1+r.length = i+(c :: r).length := by
      rw [List.length_cons]
      omega
    have hr : EndsLines r := EndsLines.of_append (s := [c]) he
    have hnr : ¬ docOpen <:+: r := fun h => hn (h.trans (List.suffix_cons c r).isInfix)
    have ho : docOpen.isPrefixOf? (c :: (r ++ t)) = none := isPrefixOf?_docOpen_append hn he t
    rw [List.cons_append,docSpans_cons ho,ih hnr hr,hi]

/-- The doc comments of the first text, and those of the second one where it stands. -/
theorem docSpans_append (hs : Closed s) (he : EndsLines s) (i : Nat) (t : Text) :
    docSpans i (s ++ t) = docSpans i s ++ docSpans (i+s.length) t := by
  induction hl : s.length using Nat.strongRecOn generalizing i s with
  | ind n ih =>
    subst hl
    cases hc : cutComment? s with
    | none =>
      rw [docSpans_of_none hc,List.nil_append]
      exact docSpans_append_of_notInfix ((closed_iff_of_none hc).mp hs) he i t
    | some p =>
      obtain ⟨a,b,u⟩ := p
      have heq := eq_append_of_cutComment? hc
      have hu : EndsLines u := by
        rw [heq,← List.append_assoc,← List.append_assoc,← List.append_assoc] at he
        exact he.of_append
      have hi : i+a.length+(docOpen ++ (b ++ docClose)).length+u.length = i+s.length := by
        rw [heq]
        simp only [List.length_append]
        omega
      have hh := ih u.length (length_lt_of_cutComment? hc) ((closed_iff_of_some hc).mp hs) hu
        (i+a.length+(docOpen ++ (b ++ docClose)).length) rfl
      rw [docSpans_of_some hc,docSpans_of_some (cutComment?_append hc t),hh,hi,List.cons_append]

end

end SourcePattern
end DocTags
