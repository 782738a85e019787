import DocTags.Proofs.DeclarationGrammar
import DocTags.Proofs.DocSpans
import DocTags.Proofs.Landmarks

/-! The index of a text, told by an automaton that reads the lines from first to last and keeps only
the open class. A line leaves the class open, opens another or closes it, and declares at most one
reference. -/
namespace DocTags
namespace LineScan

open SourcePattern SourceIndex

def openAfter (o : Option Text) (line : Text) : Option Text :=
  match landmark? line with
  | some (.classDeclaration c) => some c
  | some .classEnd => none
  | _ => o

/-- What a line declares. A function is a method of the open class. -/
def declared? (o : Option Text) (line : Text) : Option Reference :=
  match landmark? line with
  | some (.classDeclaration c) => some ⟨c,none⟩
  | some (.functionDeclaration f) => o.map fun c => ⟨c,some f⟩
  | _ => none

def declarations : Option Text → List (Nat × Text) → List (Nat × Reference)
  | _,[] => []
  | o,e :: ls =>
    match declared? o e.2 with
    | some r => (e.1,r) :: declarations (openAfter o e.2) ls
    | none => declarations (openAfter o e.2) ls

section

variable {e : Nat × Text} (ls : List (Nat × Text))

theorem declarations_classDeclaration {c : Text} (o : Option Text)
    (h : landmark? e.2 = some (.classDeclaration c)) :
    declarations o (e :: ls) = (e.1,⟨c,none⟩) :: declarations (some c) ls := by
  simp only [declarations,declared?,openAfter,h]

theorem declarations_method {f : Text} (c : Text)
    (h : landmark? e.2 = some (.functionDeclaration f)) :
    declarations (some c) (e :: ls) = (e.1,⟨c,some f⟩) :: declarations (some c) ls := by
  simp only [declarations,declared?,openAfter,h,Option.map_some]

theorem declarations_function {f : Text} (h : landmark? e.2 = some (.functionDeclaration f)) :
    declarations none (e :: ls) = declarations none ls := by
  simp only [declarations,declared?,openAfter,h,Option.map_none]

theorem declarations_classEnd (o : Option Text) (h : landmark? e.2 = some .classEnd) :
    declarations o (e :: ls) = declarations none ls := by
  simp only [declarations,declared?,openAfter,h]

theorem declarations_of_none (o : Option Text) (h : landmark? e.2 = none) :
    declarations o (e :: ls) = declarations o ls := by
  simp only [declarations,declared?,openAfter,h]

end

def openBehind (o : Option Text) (ls : List (Nat × Text)) : Option Text :=
  ls.foldl (fun o e => openAfter o e.2) o

theorem declarations_append (o : Option Text) (ls ls' : List (Nat × Text)) :
    declarations o (ls ++ ls') = declarations o ls ++ declarations (openBehind o ls) ls' := by
  induction ls generalizing o with
  | nil => rfl
  | cons e ls ih =>
    rw [List.cons_append,declarations,declarations,ih]
    cases declared? o e.2 <;> rfl

theorem declarations_map (f : Nat → Nat) (o : Option Text) (ls : List (Nat × Text)) :
    declarations o (ls.map fun e => (f e.1,e.2)) =
      (declarations o ls).map fun d => (f d.1,d.2) := by
  induction ls generalizing o with
  | nil => rfl
  | cons e ls ih =>
    rw [List.map_cons,declarations,declarations,ih]
    cases declared? o e.2 <;> rfl

theorem sublist_declarations (o : Option Text) (ls : List (Nat × Text)) :
    ((declarations o ls).map Prod.fst).Sublist
      ((ls.filter fun e => (landmark? e.2).isSome).map Prod.fst) := by
  induction ls generalizing o with
  | nil => exact List.Sublist.slnil
  | cons e ls ih =>
    rw [declarations]
    cases hm : landmark? e.2 with
    | none =>
      have hd : declared? o e.2 = none := by simp only [declared?,hm]
      rw [hd,List.filter_cons_of_neg (by simp [hm])]
      exact ih _
    | some m =>
      rw [List.filter_cons_of_pos (by simp [hm]),List.map_cons]
      cases declared? o e.2 with
      | none => exact (ih _).cons _
      | some r => exact (ih _).cons_cons _

theorem exists_line_of_mem_declarations {o : Option Text} {ls : List (Nat × Text)}
    {d : Nat × Reference} (h : d ∈ declarations o ls) :
    ∃ e ∈ ls, e.1 = d.1 ∧ (landmark? e.2).isSome := by
  obtain ⟨e,he,hd⟩ := List.mem_map.mp ((sublist_declarations o ls).subset (List.mem_map_of_mem h))
  obtain ⟨he,hm⟩ := List.mem_filter.mp he
  exact ⟨e,he,hd,hm⟩

/-- The automaton: from an open class, over lines with their places, to declarations. -/
inductive Run : Option Text → List (Nat × Text) → List (Nat × Reference) → Prop
  | done (o : Option Text) : Run o [] []
  | classLine {o : Option Text} {i : Nat} {l c : Text} {ls : List (Nat × Text)}
      {ds : List (Nat × Reference)} (hl : DeclaresClass l c) (hr : Run (some c) ls ds) :
      Run o ((i,l) :: ls) ((i,⟨c,none⟩) :: ds)
  | methodLine {c : Text} {i : Nat} {l f : Text} {ls : List (Nat × Text)}
      {ds : List (Nat × Reference)} (hl : DeclaresFunction l f) (hr : Run (some c) ls ds) :
      Run (some c) ((i,l) :: ls) ((i,⟨c,some f⟩) :: ds)
  | functionLine {i : Nat} {l f : Text} {ls : List (Nat × Text)} {ds : List (Nat × Reference)}
      (hl : DeclaresFunction l f) (hr : Run none ls ds) : Run none ((i,l) :: ls) ds
  | braceLine {o : Option Text} {i : Nat} {l : Text} {ls : List (Nat × Text)}
      {ds : List (Nat × Reference)} (hl : l.head? = some '\x7d') (hr : Run none ls ds) :
      Run o ((i,l) :: ls) ds
  | otherLine {o : Option Text} {i : Nat} {l : Text} {ls : List (Nat × Text)}
      {ds : List (Nat × Reference)} (hc : ∀ c, ¬ DeclaresClass l c)
      (hf : ∀ f, ¬ DeclaresFunction l f) (hb : l.head? ≠ some '\x7d') (hr : Run o ls ds) :
      Run o ((i,l) :: ls) ds

theorem run_declarations (o : Option Text) {ls : List (Nat × Text)} (h : ∀ e ∈ ls, '\n' ∉ e.2) :
    Run o ls (declarations o ls) := by
  induction ls generalizing o with
  | nil => exact .done o
  | cons e ls ih =>
    have he : '\n' ∉ e.2 := h e (by simp)
    have hls : ∀ e ∈ ls, '\n' ∉ e.2 := fun e he => h e (by simp [he])
    cases hm : landmark? e.2 with
    | none =>
      obtain ⟨hc,hf,hb⟩ := (landmark?_eq_none_iff he).mp hm
      rw [declarations_of_none ls o hm]
      exact .otherLine hc hf hb (ih o hls)
    | some m =>
      cases m with
      | classDeclaration c =>
        rw [declarations_classDeclaration ls o hm]
        exact .classLine ((landmark?_eq_classDeclaration_iff he).mp hm) (ih (some c) hls)
      | functionDeclaration f =>
        have hf := (landmark?_eq_functionDeclaration_iff he).mp hm
        cases o with
        | none =>
          rw [declarations_function ls hm]
          exact .functionLine hf (ih none hls)
        | some c =>
          rw [declarations_method ls c hm]
          exact .methodLine hf (ih (some c) hls)
      | classEnd =>
        rw [declarations_classEnd ls o hm]
        exact .braceLine (landmark?_eq_classEnd_iff.mp hm) (ih none hls)

/-- No line can be read in two ways, so there is one run. -/
theorem Run.eq_declarations {o : Option Text} {ls : List (Nat × Text)}
    {ds : List (Nat × Reference)} (hr : Run o ls ds) (h : ∀ e ∈ ls, '\n' ∉ e.2) :
    ds = declarations o ls := by
  induction hr with
  | done o => rfl
  | @classLine o i l c ls ds hl hr ih =>
    have hm := (landmark?_eq_classDeclaration_iff (h (i,l) (by simp))).mpr hl
    have hh := ih fun e he => h e (by simp [he])
    rw [declarations_classDeclaration ls o hm,hh]
  | @methodLine c i l f ls ds hl hr ih =>
    have hm := (landmark?_eq_functionDeclaration_iff (h (i,l) (by simp))).mpr hl
    have hh := ih fun e he => h e (by simp [he])
    rw [declarations_method ls c hm,hh]
  | @functionLine i l f ls ds hl hr ih =>
    have hm := (landmark?_eq_functionDeclaration_iff (h (i,l) (by simp))).mpr hl
    have hh := ih fun e he => h e (by simp [he])
    rw [declarations_function ls hm,hh]
  | @braceLine o i l ls ds hl hr ih =>
    have hm := landmark?_eq_classEnd_iff.mpr hl
    have hh := ih fun e he => h e (by simp [he])
    rw [declarations_classEnd ls o hm,hh]
  | @otherLine o i l ls ds hc hf hb hr ih =>
    have hm := (landmark?_eq_none_iff (h (i,l) (by simp))).mpr ⟨hc,hf,hb⟩
    have hh := ih fun e he => h e (by simp [he])
    rw [declarations_of_none ls o hm,hh]

theorem run_iff {o : Option Text} {ls : List (Nat × Text)} {ds : List (Nat × Reference)}
    (h : ∀ e ∈ ls, '\n' ∉ e.2) : Run o ls ds ↔ ds = declarations o ls :=
  ⟨fun hr => hr.eq_declarations h,fun he => he ▸ run_declarations o h⟩

end LineScan

namespace SourceIndex

open SourcePattern LineScan

def declarationsOf (s : Text) : List (Nat × Reference) := declarations none (Text.placed 0 s.lines)

theorem le_length_of_mem_declarationsOf {s : Text} {d : Nat × Reference}
    (h : d ∈ declarationsOf s) : d.1 ≤ s.length := by
  obtain ⟨e,he,hd,-⟩ := exists_line_of_mem_declarations h
  have hl := Text.le_length_of_mem_placed he
  omega

/-- Setting a comment at each landmark sets one for each declaration. -/
theorem foldl_step (comment : Nat → Text) (ls : List (Nat × Text)) (o : Option Text)
    (es : List (Reference × Text)) :
    ((lineLandmarks ls).foldl (Progress.step comment) ⟨o,es⟩).entries =
      (declarations o ls).foldl (fun es d => KeyedList.put d.2 (comment d.1) es) es := by
  induction ls generalizing o es with
  | nil => rfl
  | cons e ls ih =>
    rw [lineLandmarks,List.filterMap_cons]
    cases hm : landmark? e.2 with
    | none =>
      rw [declarations_of_none ls o hm]
      exact ih o es
    | some m =>
      cases m with
      | classDeclaration c =>
        rw [declarations_classDeclaration ls o hm]
        exact ih (some c) _
      | functionDeclaration f =>
        cases o with
        | none =>
          rw [declarations_function ls hm]
          exact ih none es
        | some c =>
          rw [declarations_method ls c hm]
          exact ih (some c) _
      | classEnd =>
        rw [declarations_classEnd ls o hm]
        exact ih none es

theorem entries_ofText (s : Text) :
    (ofText s).entries =
      KeyedList.ofPairs ((declarationsOf s).map fun d => (d.2,docAbove s d.1)) := by
  have hc : commentAt s (findAll docComment s) = docAbove s := funext (commentAt_eq_docAbove s)
  rw [ofText,hc,landmarks_eq]
  refine (foldl_step (docAbove s) (Text.placed 0 s.lines) none []).trans ?_
  rw [KeyedList.ofPairs,List.foldl_map,declarationsOf]

theorem references_ofText (s : Text) :
    (ofText s).references = ((declarationsOf s).map Prod.snd).eraseDups := by
  rw [references,entries_ofText,KeyedList.keys_ofPairs,KeyedList.keys,List.map_map]
  rfl

theorem pairwise_declarationsOf (s : Text) : (declarationsOf s).Pairwise fun a b => a.1 < b.1 := by
  refine List.pairwise_map.mp (List.Pairwise.sublist (sublist_declarations none _) ?_)
  exact List.pairwise_map.mpr ((Text.pairwise_placed 0 s.lines).filter _)

theorem comment_of_undeclared {s : Text} {r : Reference} (h : r ∉ (declarationsOf s).map Prod.snd) :
    (ofText s).comment r = [] := by
  have hk : r ∉ KeyedList.keys ((declarationsOf s).map fun d => (d.2,docAbove s d.1)) := by
    rw [KeyedList.keys,List.map_map]
    exact h
  rw [comment,entries_ofText,KeyedList.lookup_ofPairs_of_notMem hk]
  rfl

/-- The last declaration of a reference decides its comment. -/
theorem comment_of_last {s : Text} {r : Reference} {i : Nat} {before after : List (Nat × Reference)}
    (h : declarationsOf s = before ++ (i,r) :: after) (ha : r ∉ after.map Prod.snd) :
    (ofText s).comment r = docAbove s i := by
  have hk : r ∉ KeyedList.keys (after.map fun d => (d.2,docAbove s d.1)) := by
    rw [KeyedList.keys,List.map_map]
    exact ha
  rw [comment,entries_ofText,h,List.map_append,List.map_cons,
    KeyedList.lookup_ofPairs_append hk,Option.getD_some]

theorem exists_of_comment_ne_nil {s : Text} {r : Reference} (h : (ofText s).comment r ≠ []) :
    ∃ i, (i,r) ∈ declarationsOf s ∧ (ofText s).comment r = docAbove s i := by
  have hr : r ∈ (declarationsOf s).reverse.map Prod.snd := by
    by_contra hr
    exact h (comment_of_undeclared (by simpa using hr))
  obtain ⟨after,before,hs,ha⟩ := List.eq_append_cons_of_mem hr
  obtain ⟨xs,ys,hl,hxs,hys⟩ := List.map_eq_append_iff.mp hs
  obtain ⟨d,zs,rfl,rfl,-⟩ := List.map_eq_cons_iff.mp hys
  have hd : declarationsOf s = zs.reverse ++ (d.1,d.2) :: xs.reverse := by
    rw [← List.reverse_reverse (declarationsOf s),hl]
    simp
  refine ⟨d.1,by rw [hd]; simp,comment_of_last hd ?_⟩
  rw [← hxs] at ha
  simpa using ha

/-- The index of a text is what one pass over its lines makes of it. The pass has one run; the
references are its declarations in order and without repeats; the last declaration of a reference
decides its comment. -/
theorem ofText_of_run (s : Text) :
    ofText s = LineScan.index s ∧
      ∃ ds, (∀ ds', Run none (Text.placed 0 s.lines) ds' ↔ ds' = ds) ∧
        (ofText s).references = (ds.map Prod.snd).eraseDups ∧
        (∀ r, r ∉ ds.map Prod.snd → (ofText s).comment r = []) ∧
        ∀ before i r after, ds = before ++ (i,r) :: after → r ∉ after.map Prod.snd →
          (ofText s).comment r = docAbove s i := by
  have hn : ∀ e ∈ Text.placed 0 s.lines, '\n' ∉ e.2 := fun e he =>
    Text.notMem_of_mem_placed he
  refine ⟨ofText_eq_index s,declarationsOf s,fun ds' => run_iff hn,references_ofText s,?_,?_⟩
  · intro r hr
    exact comment_of_undeclared hr
  · intro before i r after hd ha
    exact comment_of_last hd ha

end SourceIndex
end DocTags
