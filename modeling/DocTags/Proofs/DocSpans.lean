import DocTags.Proofs.Cuts
import DocTags.SourceIndex

/-! The doc comments of a text, cut off one after the other at their delimiters, and the comment that
stands above a place. -/
namespace DocTags
namespace SourcePattern

section

variable {α : Type} {p : Pattern α} (hp : ∀ b s, p b s = p true s)
include hp

theorem findFrom_lineStart (i k : Nat) (b : Bool) (s : Text) :
    findFrom p i k b s = findFrom p i k true s := by
  cases s with
  | nil => cases k <;> rfl
  | cons c r =>
    cases k with
    | zero => rw [findFrom,findFrom,hp]
    | succ k => rfl

theorem findFrom_append (u v : Text) (i : Nat) (b : Bool) :
    findFrom p i u.length b (u ++ v) = findFrom p (i+u.length) 0 true v := by
  induction u generalizing i b with
  | nil => exact findFrom_lineStart hp i 0 b v
  | cons c u ih =>
    have hi : i+1+u.length = i+(c :: u).length := by
      rw [List.length_cons]
      omega
    rw [List.cons_append,List.length_cons,findFrom,ih,hi,List.length_cons]

end

/-- What stands before the first doc comment, between its delimiters and behind it. -/
def cutComment? (s : Text) : Option (Text × Text × Text) :=
  (Text.cut? docOpen s).bind fun p => (Text.cut? docClose p.2).map fun q => (p.1,q.1,q.2)

theorem eq_append_of_cutComment? {s a b t : Text} (h : cutComment? s = some (a,b,t)) :
    s = a ++ (docOpen ++ (b ++ (docClose ++ t))) := by
  obtain ⟨⟨a',r⟩,ha,hr⟩ := Option.bind_eq_some_iff.mp h
  obtain ⟨⟨b',t'⟩,hb,he⟩ := Option.map_eq_some_iff.mp hr
  obtain ⟨rfl,rfl,rfl⟩ : a' = a ∧ b' = b ∧ t' = t := by simpa using he
  rw [(Text.cut?_eq_some_iff.mp ha).1,← (Text.cut?_eq_some_iff.mp hb).1]

theorem length_lt_of_cutComment? {s a b t : Text} (h : cutComment? s = some (a,b,t)) :
    t.length < s.length := by
  rw [eq_append_of_cutComment? h]
  simp only [List.length_append,docOpen,docClose,String.length_toList]
  have ho : 0 < "/**".length := by decide
  omega

/-- The doc comments of a text that starts at place `i`: each goes from the first opening delimiter
to the first closing delimiter behind it. -/
def docSpans (i : Nat) (s : Text) : List (Match Text) :=
  match h : cutComment? s with
  | some (a,b,t) =>
    have := length_lt_of_cutComment? h
    let start := i+a.length
    let stop := start+(docOpen ++ (b ++ docClose)).length
    ⟨start,stop,b⟩ :: docSpans stop t
  | none => []
termination_by s.length

theorem docSpans_of_none {s : Text} (h : cutComment? s = none) (i : Nat) : docSpans i s = [] := by
  rw [docSpans]
  split
  · rename_i ho
    rw [h] at ho
    cases ho
  · rfl

theorem docSpans_of_some {s a b t : Text} (h : cutComment? s = some (a,b,t)) (i : Nat) :
    docSpans i s =
      ⟨i+a.length,i+a.length+(docOpen ++ (b ++ docClose)).length,b⟩ ::
        docSpans (i+a.length+(docOpen ++ (b ++ docClose)).length) t := by
  rw [docSpans]
  split
  · rename_i ho
    rw [h] at ho
    obtain ⟨rfl,rfl,rfl⟩ : a = _ ∧ b = _ ∧ t = _ := by simpa using ho
    rfl
  · rename_i ho
    rw [h] at ho
    cases ho

theorem cut?_eq_none_of_suffix {sep s t : Text} (h : Text.cut? sep s = none) (ht : t <:+ s) :
    Text.cut? sep t = none := by
  obtain ⟨u,rfl⟩ := ht
  refine Text.cut?_eq_none_iff.mpr fun x y hxy => ?_
  refine Text.cut?_eq_none_iff.mp h (u ++ x) y ?_
  rw [hxy,List.append_assoc]

theorem cutComment?_cons {c : Char} {r : Text} (h : docOpen.isPrefixOf? (c :: r) = none) :
    cutComment? (c :: r) = (cutComment? r).map fun p => (c :: p.1,p.2) := by
  rw [cutComment?,Text.cut?,h,cutComment?]
  cases Text.cut? docOpen r with
  | none => rfl
  | some p =>
    simp only [Option.map_some,Option.bind_some]
    cases Text.cut? docClose p.2 <;> rfl

theorem docSpans_cons {c : Char} {r : Text} (h : docOpen.isPrefixOf? (c :: r) = none) (i : Nat) :
    docSpans i (c :: r) = docSpans (i+1) r := by
  cases hr : cutComment? r with
  | none =>
    have hc : cutComment? (c :: r) = none := by rw [cutComment?_cons h,hr,Option.map_none]
    rw [docSpans_of_none hc,docSpans_of_none hr]
  | some p =>
    obtain ⟨a,b,t⟩ := p
    have hc : cutComment? (c :: r) = some (c :: a,b,t) := by
      rw [cutComment?_cons h,hr,Option.map_some]
    have hi : i+(c :: a).length = i+1+a.length := by
      rw [List.length_cons]
      omega
    rw [docSpans_of_some hc,docSpans_of_some hr,hi]

/-- An opening delimiter that is never closed: none behind it is closed either. -/
theorem cutComment?_of_unclosed {c : Char} {r t : Text} (ho : docOpen ++ t = c :: r)
    (hc : Text.cut? docClose t = none) : cutComment? r = none := by
  refine Option.bind_eq_none_iff.mpr fun p hp => ?_
  have hp' := (Text.cut?_eq_some_iff.mp hp).1
  have hl := congrArg List.length ho
  have hl' := congrArg List.length hp'
  simp only [List.length_append,List.length_cons] at hl hl'
  have hs : p.2 <:+ c :: r := by
    refine ⟨c :: (p.1 ++ docOpen),?_⟩
    rw [List.cons_append,List.append_assoc,← hp']
  have ht : p.2 <:+ t := List.suffix_of_suffix_length_le hs ⟨docOpen,ho⟩ (by omega)
  rw [cut?_eq_none_of_suffix hc ht,Option.map_none]

theorem exists_skipped {c : Char} {d r u : Text}
    (h : c :: r = docOpen ++ (d ++ (docClose ++ u))) :
    ∃ w, docOpen ++ (d ++ docClose) = c :: w ∧ r = w ++ u := by
  have hd : docOpen ++ (d ++ (docClose ++ u)) = (docOpen ++ (d ++ docClose)) ++ u := by
    simp only [List.append_assoc]
  rw [hd] at h
  cases hx : docOpen ++ (d ++ docClose) with
  | nil => simp [docOpen] at hx
  | cons e w =>
    rw [hx,List.cons_append] at h
    obtain ⟨rfl,hr⟩ := List.cons.inj h
    exact ⟨w,rfl,hr⟩

/-- Cutting at the delimiters finds what the search finds. -/
theorem findFrom_docComment (s : Text) (i : Nat) (b : Bool) :
    findFrom docComment i 0 b s = docSpans i s := by
  induction hn : s.length using Nat.strongRecOn generalizing s i b with
  | ind n ih =>
    cases s with
    | nil =>
      rw [docSpans_of_none rfl]
      rfl
    | cons c r =>
      have hr : r.length < n := by
        rw [← hn,List.length_cons]
        omega
      cases ho : docOpen.isPrefixOf? (c :: r) with
      | none =>
        have hm : docComment b (c :: r) = none := by rw [docComment,ho,Option.bind_none]
        rw [findFrom,hm,docSpans_cons ho]
        exact ih r.length hr r (i+1) _ rfl
      | some t =>
        have hs := List.isPrefixOf?_eq_some_iff_append_eq.mp ho
        have hcut : Text.cut? docOpen (c :: r) = some ([],t) := by rw [Text.cut?,ho]
        cases hc : Text.cut? docClose t with
        | none =>
          have hm : docComment b (c :: r) = none := by rw [docComment,ho,Option.bind_some,hc]
          have hno : cutComment? (c :: r) = none := by
            rw [cutComment?,hcut,Option.bind_some,hc,Option.map_none]
          rw [findFrom,hm,docSpans_of_none hno,ih r.length hr r (i+1) _ rfl,
            docSpans_of_none (cutComment?_of_unclosed hs hc)]
        | some q =>
          obtain ⟨d,u⟩ := q
          have hm : docComment b (c :: r) = some (d,u) := by rw [docComment,ho,Option.bind_some,hc]
          have hsome : cutComment? (c :: r) = some ([],d,u) := by
            rw [cutComment?,hcut,Option.bind_some,hc,Option.map_some]
          have hu := length_lt_of_cutComment? hsome
          have heq : c :: r = docOpen ++ (d ++ (docClose ++ u)) := eq_append_of_cutComment? hsome
          obtain ⟨w,hw,rfl⟩ := exists_skipped heq
          have hk : (w ++ u).length+1-u.length = w.length+1 := by
            rw [List.length_append]
            omega
          have hi : i+1+w.length = i+(w.length+1) := by omega
          rw [findFrom,hm,docSpans_of_some hsome,hw]
          simp only [hk,Nat.add_sub_cancel,List.length_nil,Nat.add_zero,List.length_cons]
          rw [findFrom_append (fun _ _ => rfl),hi,ih u.length (hn ▸ hu) u _ _ rfl]

theorem findAll_docComment (s : Text) : findAll docComment s = docSpans 0 s :=
  findFrom_docComment s 0 true

theorem slice_of_mem_docSpans_length {pre s : Text} {m : Match Text}
    (h : m ∈ docSpans pre.length s) :
    ∃ a t, pre ++ s = a ++ (docOpen ++ (m.found ++ docClose)) ++ t ∧ m.start = a.length ∧
      m.stop = (a ++ (docOpen ++ (m.found ++ docClose))).length := by
  induction hn : s.length using Nat.strongRecOn generalizing pre s with
  | ind n ih =>
    cases hc : cutComment? s with
    | none =>
      rw [docSpans_of_none hc] at h
      cases h
    | some q =>
      obtain ⟨a,b,t⟩ := q
      have heq := eq_append_of_cutComment? hc
      have hl := length_lt_of_cutComment? hc
      rw [docSpans_of_some hc] at h
      rcases List.mem_cons.mp h with rfl | h
      · refine ⟨pre ++ a,t,?_,?_,?_⟩
        · simp only [heq,List.append_assoc]
        · simp
        · simp only [List.length_append]
      · have hpre : pre.length+a.length+(docOpen ++ (b ++ docClose)).length =
            (pre ++ a ++ (docOpen ++ (b ++ docClose))).length := by
          simp only [List.length_append]
        rw [hpre] at h
        obtain ⟨x,y,hxy,hp⟩ := ih t.length (hn ▸ hl) h rfl
        refine ⟨x,y,?_,hp⟩
        rw [← hxy]
        simp only [heq,List.append_assoc]

theorem slice_of_mem_docSpans {s : Text} {m : Match Text} (h : m ∈ docSpans 0 s) :
    ∃ a t, s = a ++ (docOpen ++ (m.found ++ docClose)) ++ t ∧ m.start = a.length ∧
      m.stop = (a ++ (docOpen ++ (m.found ++ docClose))).length := by
  have h' : m ∈ docSpans ([] : Text).length s := h
  exact slice_of_mem_docSpans_length h'

end SourcePattern

namespace SourceIndex

open SourcePattern

def stripClosing (t : Text) : Text :=
  match docClose.isSuffixOf? t with
  | some u => Text.trimEnd isWhiteSpace u
  | none => t

/-- The comment that a declaration at place `i` gets: the last one that ends at or before the place,
if only blank lines and attributes stand between. -/
def docAbove (s : Text) (i : Nat) : Text :=
  match (docSpans 0 s).reverse.find? fun m => m.stop ≤ i with
  | some m =>
    if (Text.lines ((s.take i).drop m.stop)).all isLooseLine then
      stripClosing ((s.take m.stop).drop m.start)
    else []
  | none => []

theorem stripClosing_append (u : Text) : stripClosing (u ++ docClose) = Text.trimEnd isWhiteSpace u := by
  have h : docClose.isSuffixOf? (u ++ docClose) = some u := by
    simp [List.isSuffixOf?,List.isPrefixOf?_eq_some_iff_append_eq]
  rw [stripClosing,h]

theorem commentAt_eq_docAbove (s : Text) (i : Nat) :
    commentAt s (findAll docComment s) i = docAbove s i := by
  rw [commentAt,attached?,findAll_docComment,docAbove]
  cases hf : (docSpans 0 s).reverse.find? fun m => m.stop ≤ i with
  | none => rfl
  | some m =>
    have hm : m ∈ docSpans 0 s := List.mem_reverse.mp (List.mem_of_find?_eq_some hf)
    obtain ⟨a,t,hs,hstart,hstop⟩ := slice_of_mem_docSpans hm
    have htake : s.take m.stop = a ++ (docOpen ++ (m.found ++ docClose)) := by
      rw [hstop]
      exact (congrArg (List.take _) hs).trans List.take_left
    have hslice : (s.take m.stop).drop m.start = (docOpen ++ m.found) ++ docClose := by
      rw [htake,hstart,List.drop_left,List.append_assoc]
    simp only [Option.bind_eq_bind,Option.bind_some,hslice,stripClosing_append]
    by_cases hg : (Text.lines ((s.take i).drop m.stop)).all isLooseLine = true
    · simp only [hg,if_true,stored]
    · simp only [hg,if_false,Bool.false_eq_true]

theorem docAbove_eq_stored (s : Text) (i : Nat) : docAbove s i =
    match (docSpans 0 s).reverse.find? fun m => m.stop ≤ i with
    | some m =>
      if (Text.lines ((s.take i).drop m.stop)).all isLooseLine then stored m.found else []
    | none => [] := by
  rw [← commentAt_eq_docAbove,commentAt,attached?,findAll_docComment]
  cases (docSpans 0 s).reverse.find? fun m => m.stop ≤ i with
  | none => rfl
  | some m =>
    simp only [Option.bind_eq_bind,Option.bind_some]
    cases (Text.lines ((s.take i).drop m.stop)).all isLooseLine <;> rfl

end SourceIndex
end DocTags
