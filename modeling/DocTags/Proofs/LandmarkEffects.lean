import DocTags.Proofs.IndexedNames
import DocTags.Proofs.Repeats

/-! What a run of landmarks does to an index, whatever stands before and behind it: it declares
references and leaves a class open. Two runs that do the same from each open class cannot be told
apart by the references of any source, and two that do not can be. -/
namespace DocTags

namespace SourcePattern

theorem exists_isName_notMem (l : List Text) : ∃ f, IsName f ∧ f ∉ l := by
  refine ⟨List.replicate (l.flatten.length+1) 'f',?_,fun hf => ?_⟩
  · refine ⟨'f',List.replicate l.flatten.length 'f',rfl,by decide,fun d hd => ?_⟩
    rw [List.eq_of_mem_replicate hd]
    decide
  · have hl := (List.sublist_flatten_of_mem hf).length_le
    rw [List.length_replicate] at hl
    omega

end SourcePattern

namespace SourceIndex

open SourcePattern LineScan

def openBy : Option Text → List Landmark → Option Text
  | o,[] => o
  | _,.classDeclaration c :: ms => openBy (some c) ms
  | o,.functionDeclaration _ :: ms => openBy o ms
  | _,.classEnd :: ms => openBy none ms

def declaredBy : Option Text → List Landmark → List Reference
  | _,[] => []
  | _,.classDeclaration c :: ms => ⟨c,none⟩ :: declaredBy (some c) ms
  | some c,.functionDeclaration f :: ms => ⟨c,some f⟩ :: declaredBy (some c) ms
  | none,.functionDeclaration _ :: ms => declaredBy none ms
  | _,.classEnd :: ms => declaredBy none ms

theorem declaredBy_append (o : Option Text) (ms ns : List Landmark) :
    declaredBy o (ms ++ ns) = declaredBy o ms ++ declaredBy (openBy o ms) ns := by
  induction ms generalizing o with
  | nil => rfl
  | cons m ms ih =>
    cases m with
    | classDeclaration c => simp only [List.cons_append,declaredBy,openBy,ih]
    | functionDeclaration f => cases o <;> simp only [List.cons_append,declaredBy,openBy,ih]
    | classEnd => simp only [List.cons_append,declaredBy,openBy,ih]

def landmarksIn (s : Text) : List Landmark := s.lines.filterMap landmark?

theorem map_declarations (o : Option Text) (i : Nat) (ls : List Text) :
    (declarations o (Text.placed i ls)).map Prod.snd = declaredBy o (ls.filterMap landmark?) := by
  induction ls generalizing o i with
  | nil => rfl
  | cons l ls ih =>
    rw [Text.placed,List.filterMap_cons]
    cases hm : landmark? l with
    | none =>
      rw [declarations_of_none _ o hm]
      exact ih o _
    | some m =>
      cases m with
      | classDeclaration c =>
        rw [declarations_classDeclaration _ o hm,List.map_cons,ih]
        rfl
      | functionDeclaration f =>
        cases o with
        | none =>
          rw [declarations_function _ hm]
          exact ih none _
        | some c =>
          rw [declarations_method _ c hm,List.map_cons,ih]
          rfl
      | classEnd =>
        rw [declarations_classEnd _ o hm]
        exact ih none _

theorem references_eq_declaredBy (s : Text) :
    (ofText s).references = (declaredBy none (landmarksIn s)).eraseDups := by
  rw [references_ofText,declarationsOf,map_declarations,landmarksIn]

theorem mem_declaredBy_of_openBy {o : Option Text} {ms : List Landmark} {c : Text}
    (h : openBy o ms = some c) : o = some c ∨ ⟨c,none⟩ ∈ declaredBy o ms := by
  induction ms generalizing o with
  | nil => exact Or.inl h
  | cons m ms ih =>
    cases m with
    | classDeclaration d =>
      rcases ih h with hd | hd
      · exact Or.inr (by simp [declaredBy,Option.some.inj hd])
      · exact Or.inr (List.mem_cons_of_mem _ hd)
    | functionDeclaration f =>
      cases o with
      | none => exact ih h
      | some d => exact (ih h).imp_right (List.mem_cons_of_mem _)
    | classEnd =>
      rcases ih h with hd | hd
      · cases hd
      · exact Or.inr hd

def openClass (o : Option Text) : List Reference := o.toList.map fun c => ⟨c,none⟩

def NamedClass (o : Option Text) : Prop := ∀ c, o = some c → IsName c

/-- From each class that can be open, the landmarks leave the same class open and declare the same,
apart from repeats. -/
structure SameEffect (ms ns : List Landmark) : Prop where
  opened : ∀ o, NamedClass o → openBy o ms = openBy o ns
  declared : ∀ o, NamedClass o →
    (openClass o ++ declaredBy o ms).eraseDups = (openClass o ++ declaredBy o ns).eraseDups

theorem mem_of_mem_openClass {ps : List Landmark} {r : Reference}
    (h : r ∈ openClass (openBy none ps)) : r ∈ declaredBy none ps := by
  obtain ⟨c,hc,rfl⟩ := List.mem_map.mp h
  rcases mem_declaredBy_of_openBy (Option.mem_toList.mp hc) with hn | hd
  · cases hn
  · exact hd

/-- Landmarks with the same effect between others: the declarations are the same. -/
theorem SameEffect.eraseDups_eq {ms ns : List Landmark} (h : SameEffect ms ns) {ps : List Landmark}
    (hp : NamedClass (openBy none ps)) (qs : List Landmark) :
    (declaredBy none (ps ++ (ms ++ qs))).eraseDups =
      (declaredBy none (ps ++ (ns ++ qs))).eraseDups := by
  have hd : (declaredBy none ps ++ declaredBy (openBy none ps) ms).eraseDups =
      (declaredBy none ps ++ declaredBy (openBy none ps) ns).eraseDups :=
    Repeats.eraseDups_append_congr_right (fun _ hr => mem_of_mem_openClass hr)
      (h.declared (openBy none ps) hp)
  have hh := Repeats.eraseDups_append_congr_left hd
    (declaredBy (openBy (openBy none ps) ns) qs)
  simp only [declaredBy_append,h.opened _ hp]
  rw [← List.append_assoc,← List.append_assoc,hh]

/-- A method with a name that is declared nowhere else tells which class is open. -/
theorem mem_method_iff {o : Option Text} {ms : List Landmark} {c f : Text}
    (hf : ⟨c,some f⟩ ∉ declaredBy o ms) :
    ⟨c,some f⟩ ∈ openClass o ++ declaredBy o (ms ++ [.functionDeclaration f]) ↔
      openBy o ms = some c := by
  have ho : ⟨c,some f⟩ ∉ openClass o := by simp [openClass]
  rw [declaredBy_append,List.mem_append,List.mem_append]
  cases openBy o ms with
  | none => simp [declaredBy,ho,hf]
  | some d => simp [declaredBy,ho,hf,eq_comm]

def functionBehind (p : Option Text) : List Landmark := p.toList.map .functionDeclaration

theorem sameEffect_of_declared {ms ns : List Landmark}
    (h : ∀ o p, NamedClass o → (∀ f, p = some f → IsName f) →
      (openClass o ++ declaredBy o (ms ++ functionBehind p)).eraseDups =
        (openClass o ++ declaredBy o (ns ++ functionBehind p)).eraseDups) : SameEffect ms ns where
  opened := by
    intro o ho
    obtain ⟨f,hf,hfresh⟩ := exists_isName_notMem
      ((declaredBy o ms ++ declaredBy o ns).filterMap Reference.method)
    have hne (c : Text) : ⟨c,some f⟩ ∉ declaredBy o ms ∧ ⟨c,some f⟩ ∉ declaredBy o ns := by
      rw [← not_or,← List.mem_append]
      exact fun hm => hfresh (List.mem_filterMap.mpr ⟨_,hm,rfl⟩)
    have hd := h o (some f) ho fun g hg => Option.some.inj hg ▸ hf
    apply Option.ext
    intro c
    rw [← mem_method_iff (hne c).1,← mem_method_iff (hne c).2]
    exact Repeats.mem_iff_of_eraseDups_eq hd _
  declared := by
    intro o ho
    have hd := h o none ho (by simp)
    simpa only [functionBehind,Option.toList_none,List.map_nil,List.append_nil] using hd

theorem sameEffect_nil_iff {ms : List Landmark} : SameEffect ms [] ↔ ms = [] := by
  constructor
  · intro h
    have hopen : NamedClass (some ['A']) := fun c hc => Option.some.inj hc ▸ isName_A
    have hnone : declaredBy none ms = [] := by
      have hd := h.declared none (by simp [NamedClass])
      rw [List.eq_nil_iff_forall_not_mem]
      intro r hr
      have hm := (Repeats.mem_iff_of_eraseDups_eq hd r).mp (List.mem_append_right _ hr)
      simp [openClass,declaredBy] at hm
    cases ms with
    | nil => rfl
    | cons m ms =>
      exfalso
      cases m with
      | classDeclaration c => simp [declaredBy] at hnone
      | functionDeclaration f =>
        have hd := h.declared _ hopen
        have hm := (Repeats.mem_iff_of_eraseDups_eq hd ⟨['A'],some f⟩).mp (by simp [declaredBy])
        simp [openClass,declaredBy] at hm
      | classEnd =>
        -- the open class is closed, and is not opened again unless it is declared again
        have ho : openBy none ms = some ['A'] := h.opened _ hopen
        rcases mem_declaredBy_of_openBy ho with hn | hd
        · cases hn
        · have hm : declaredBy none ms = [] := hnone
          rw [hm] at hd
          cases hd
  · rintro rfl
    exact ⟨fun _ _ => rfl,fun _ _ => rfl⟩

end SourceIndex
end DocTags
