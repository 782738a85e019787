import DocTags.Proofs.IndexedNames
import DocTags.Proofs.InputModes
import Mathlib.Data.List.Forall2

/-! Runs over files. What the selected files declare is read one after the other, and the first that fails
ends the run. -/
namespace DocTags

namespace Outcome

section

variable {α β ε : Type} {f : α → Except ε β}

theorem mapM_eq_ok_iff {xs : List α} {ys : List β} :
    xs.mapM f = .ok ys ↔ List.Forall₂ (fun x y => f x = .ok y) xs ys := by
  induction xs generalizing ys with
  | nil => cases ys <;> simp [pure,Except.pure]
  | cons x xs ih =>
    rw [List.mapM_cons]
    cases hx : f x with
    | error e => cases ys <;> simp [bind,Except.bind,hx]
    | ok y =>
      cases hxs : xs.mapM f with
      | error e => cases ys <;> simp [bind,Except.bind,hx,hxs,← ih]
      | ok zs => cases ys <;> simp [bind,Except.bind,pure,Except.pure,hx,hxs,← ih]

/-- The first failure ends a row of computations. -/
theorem mapM_eq_error_iff {xs : List α} {e : ε} :
    xs.mapM f = .error e ↔ ∃ before x after, xs = before ++ x :: after ∧
      (∀ b ∈ before, ∃ y, f b = .ok y) ∧ f x = .error e := by
  induction xs with
  | nil => simp [pure,Except.pure]
  | cons x xs ih =>
    rw [List.mapM_cons]
    cases hx : f x with
    | error e' =>
      change Except.error e' = Except.error e ↔ _
      constructor
      · intro h
        obtain rfl := Except.error.inj h
        exact ⟨[],x,xs,rfl,by simp,hx⟩
      · rintro ⟨_ | ⟨b,before⟩,z,after,hs,hb,hz⟩
        · obtain ⟨rfl,-⟩ := List.cons.inj hs
          rw [Except.error.inj (hx.symm.trans hz)]
        · obtain ⟨rfl,-⟩ := List.cons.inj hs
          obtain ⟨y,hy⟩ := hb x (by simp)
          cases hx.symm.trans hy
    | ok y =>
      have hm : (do let y' ← (Except.ok y : Except ε β); let ys ← xs.mapM f; pure (y' :: ys)) =
          Except.error e ↔ xs.mapM f = .error e := by
        cases xs.mapM f <;> simp [bind,Except.bind,pure,Except.pure]
      rw [hm,ih]
      constructor
      · rintro ⟨before,z,after,rfl,hb,hz⟩
        refine ⟨x :: before,z,after,rfl,?_,hz⟩
        intro b hm
        rcases List.mem_cons.mp hm with rfl | hm
        · exact ⟨y,hx⟩
        · exact hb b hm
      · rintro ⟨_ | ⟨b,before⟩,z,after,hs,hb,hz⟩
        · obtain ⟨rfl,-⟩ := List.cons.inj hs
          cases hx.symm.trans hz
        · obtain ⟨-,rfl⟩ := List.cons.inj hs
          exact ⟨before,z,after,rfl,fun b hm => hb b (by simp [hm]),hz⟩

theorem exists_mapM_iff {xs : List α} :
    (∃ ys, xs.mapM f = .ok ys) ↔ ∀ x ∈ xs, ∃ y, f x = .ok y := by
  constructor
  · rintro ⟨ys,h⟩
    have hh := mapM_eq_ok_iff.mp h
    intro x hx
    obtain ⟨n,hn,rfl⟩ := List.getElem_of_mem hx
    have hl : n < ys.length := hh.length_eq ▸ hn
    exact ⟨_,(List.forall₂_iff_get.mp hh).2 n hn hl⟩
  · intro h
    cases hm : xs.mapM f with
    | ok ys => exact ⟨ys,rfl⟩
    | error e =>
      obtain ⟨before,x,after,rfl,-,hx⟩ := mapM_eq_error_iff.mp hm
      obtain ⟨y,hy⟩ := h x (by simp)
      cases hx.symm.trans hy

theorem exists_of_mem_mapM {xs : List α} {ys : List β} (h : xs.mapM f = .ok ys) {y : β}
    (hy : y ∈ ys) : ∃ x ∈ xs, f x = .ok y := by
  have hh := mapM_eq_ok_iff.mp h
  obtain ⟨n,hn,rfl⟩ := List.getElem_of_mem hy
  have hl : n < xs.length := hh.length_eq.symm ▸ hn
  exact ⟨xs[n],List.getElem_mem hl,(List.forall₂_iff_get.mp hh).2 n hl hn⟩

theorem mapM_filter_zip {p : α → Bool} {xs : List α} {ys : List β} (h : xs.mapM f = .ok ys) :
    (xs.filter p).mapM f = .ok (((xs.zip ys).filter fun z => p z.1).map Prod.snd) := by
  rw [mapM_eq_ok_iff] at h ⊢
  induction h with
  | nil => exact .nil
  | @cons x y xs ys hx hxs ih =>
    rw [List.filter_cons,List.zip_cons_cons,List.filter_cons]
    cases p x with
    | true => exact .cons hx ih
    | false => exact ih

/-- A test of the items that can be made on the results picks the same out of both. -/
theorem mapM_filter {p : α → Bool} {q : β → Bool} {xs : List α} {ys : List β}
    (h : xs.mapM f = .ok ys) (hq : ∀ x ∈ xs, ∀ y, f x = .ok y → q y = p x) :
    (xs.filter p).mapM f = .ok (ys.filter q) := by
  have hh := mapM_eq_ok_iff.mp h
  have hz : ((xs.zip ys).filter fun z => p z.1) = (xs.zip ys).filter fun z => q z.2 :=
    List.filter_congr fun z hz => (hq z.1 (List.of_mem_zip hz).1 z.2 (List.forall₂_zip hh hz)).symm
  have hs : (xs.zip ys).map Prod.snd = ys := List.map_snd_zip (Nat.le_of_eq hh.length_eq.symm)
  have hf := List.filter_map (p := q) (f := Prod.snd) (l := xs.zip ys)
  rw [mapM_filter_zip h,hz]
  rw [hs] at hf
  exact congrArg Except.ok hf.symm

end

theorem mapM_flatMap {α β γ ε : Type} (g : α → List β) (f : β → Except ε γ) (xs : List α) :
    (xs.flatMap g).mapM f = (xs.mapM fun x => (g x).mapM f).map List.flatten := by
  induction xs with
  | nil => rfl
  | cons x xs ih =>
    rw [List.flatMap_cons,List.mapM_append,ih,List.mapM_cons]
    cases (g x).mapM f with
    | error e => rfl
    | ok ys => cases xs.mapM fun x => (g x).mapM f <;> rfl

theorem result_collect {α β : Type} (f : α → Outcome (List β)) (xs : List α) :
    (collect f xs).result = (xs.mapM fun x => (f x).result).map List.flatten := by
  induction xs with
  | nil => rfl
  | cons x xs ih =>
    rw [collect_cons,result_bind,List.mapM_cons]
    cases hx : (f x).result with
    | error e => rfl
    | ok ys =>
      show (collect f xs >>= fun zs => pure (ys ++ zs)).result = _
      rw [result_bind,ih]
      cases xs.mapM fun x => (f x).result <;> rfl

end Outcome

namespace FileSystem

/-- The source that a path leads to, if it leads to a file that can be read. -/
def source? (fs : FileSystem) (p : Bytes) : Option Text := (fs.read p).toOption

theorem exists_file_of_source? {fs : FileSystem} {p : Bytes} {s : Text} (h : fs.source? p = some s) :
    ∃ content, fs.find? p = some (.file content) := by
  unfold source? read at h
  split at h
  case h_1 bytes hf => exact ⟨_,hf⟩
  all_goals cases h

theorem source?_eq_of_find? {fs : FileSystem} {p q : Bytes} (h : fs.find? p = fs.find? q) :
    fs.source? p = fs.source? q := by
  unfold source? read
  rw [h]

end FileSystem

namespace Command

structure Declared where
  path : Bytes
  source : Text
  reference : Reference

namespace Declared

def comment (d : Declared) : Text := (SourceIndex.ofText d.source).comment d.reference

def entry (q : Query) (d : Declared) : Except Failure Entry :=
  entryOf q (.ofText d.source) (some (Text.shown d.path)) d.reference

end Declared

/-- What a run reports of the file that a path leads to. -/
def declaredAt (fs : FileSystem) (target : Option Reference) (p : Bytes) : List Declared :=
  match fs.source? p with
  | some s => (reported target (.ofText s)).map fun r => ⟨p,s,r⟩
  | none => []

def declared (fs : FileSystem) (target : Option Reference) (ps : List Bytes) : List Declared :=
  ps.flatMap (declaredAt fs target)

section

variable {fs : FileSystem} {q : Query} {target : Option Reference}

theorem mem_references_of_mem_reported {x : SourceIndex} {r : Reference}
    (h : r ∈ reported target x) : r ∈ x.references := by
  unfold reported at h
  cases target with
  | none => exact List.mem_of_mem_filter h
  | some t =>
    by_cases ht : t ∈ x.references
    · obtain rfl : r = t := by simpa [ht] using h
      exact ht
    · simp [ht] at h

theorem mem_declaredAt {p : Bytes} {d : Declared} : d ∈ declaredAt fs target p ↔
    d.path = p ∧ fs.source? p = some d.source ∧ d.reference ∈ reported target (.ofText d.source) := by
  obtain ⟨p',s',r'⟩ := d
  unfold declaredAt
  cases fs.source? p with
  | none => simp
  | some s =>
    simp only [List.mem_map,Declared.mk.injEq,Option.some.injEq]
    constructor
    · rintro ⟨r,hr,rfl,rfl,rfl⟩
      exact ⟨rfl,rfl,hr⟩
    · rintro ⟨rfl,rfl,hr⟩
      exact ⟨r',hr,rfl,rfl,rfl⟩

theorem mem_declared {ps : List Bytes} {d : Declared} : d ∈ declared fs target ps ↔
    d.path ∈ ps ∧ fs.source? d.path = some d.source ∧
      d.reference ∈ reported target (.ofText d.source) := by
  simp only [declared,List.mem_flatMap,mem_declaredAt]
  constructor
  · rintro ⟨p,hp,rfl,h⟩
    exact ⟨hp,h⟩
  · rintro ⟨hp,h⟩
    exact ⟨d.path,hp,rfl,h⟩

theorem named_of_mem_declared {ps : List Bytes} {d : Declared} (h : d ∈ declared fs target ps) :
    d.reference.Named :=
  SourceIndex.named_of_mem_references (mem_references_of_mem_reported (mem_declared.mp h).2.2)

theorem result_fileEntries (p : Bytes) :
    (fileEntries fs q target p).result = (declaredAt fs target p).mapM (Declared.entry q) := by
  unfold fileEntries declaredAt FileSystem.source?
  cases fs.read p with
  | error reason => rfl
  | ok s =>
    show (reported target (SourceIndex.ofText s)).mapM _ = _
    rw [Except.toOption,List.mapM_map]
    rfl

theorem result_collect_fileEntries (ps : List Bytes) :
    (Outcome.collect (fileEntries fs q target) ps).result =
      (declared fs target ps).mapM (Declared.entry q) := by
  rw [Outcome.result_collect,declared,Outcome.mapM_flatMap]
  simp only [result_fileEntries]

end

section

variable {files : List Text} (hf : files ≠ []) (fs : FileSystem) (input : ByteArray) (q : Query)
  (w : Text)
include hf

theorem result_listing :
    (entries ⟨files,none,q,w⟩ fs input).result =
      (FileSelection.selectAll fs files).result.bind fun ps =>
        (declared fs none ps).mapM (Declared.entry q) := by
  have he : files.isEmpty = false := by simpa using hf
  have hd : entries ⟨files,none,q,w⟩ fs input =
      FileSelection.selectAll fs files >>= fun ps =>
        Outcome.collect (fileEntries fs q none) ps >>= pure := by
    simp only [entries,he]
    rfl
  rw [hd,Outcome.result_bind]
  congr 1
  funext ps
  rw [Outcome.result_bind,result_collect_fileEntries]
  cases (declared fs none ps).mapM (Declared.entry q) <;> rfl

theorem result_target_of_isEmpty {t : Text} (ht : (Reference.ofText t).isEmpty = true) :
    (entries ⟨files,some t,q,w⟩ fs input).result =
      .error (.unread (.emptyReference (Reference.ofText t).method)) := by
  have he : files.isEmpty = false := by simpa using hf
  simp only [entries,he,filesEntries,Option.map_some,ht]
  rfl

/-- A run over files with a target: one of them has to declare it. -/
theorem result_target {t : Text} (ht : (Reference.ofText t).isEmpty = false) :
    (entries ⟨files,some t,q,w⟩ fs input).result =
      (FileSelection.selectAll fs files).result.bind fun ps =>
        ((declared fs (some (.ofText t)) ps).mapM (Declared.entry q)).bind fun es =>
          if es.isEmpty then .error (.undeclared (.ofText t)) else .ok es := by
  have he : files.isEmpty = false := by simpa using hf
  have hd : entries ⟨files,some t,q,w⟩ fs input =
      FileSelection.selectAll fs files >>= fun ps =>
        Outcome.collect (fileEntries fs q (some (.ofText t))) ps >>= fun es => do
          if es.isEmpty then Outcome.fail (.undeclared (.ofText t))
          return es := by
    simp only [entries,he,filesEntries,Option.map_some,ht]
    rfl
  rw [hd,Outcome.result_bind]
  congr 1
  funext ps
  rw [Outcome.result_bind,result_collect_fileEntries]
  congr 1
  funext es
  cases es.isEmpty <;> rfl

end

theorem result_run (a : Arguments) (fs : FileSystem) (input : ByteArray) {format : Report.Format}
    (h : Report.Format.ofName? a.format = some format) :
    (run a fs input).result = (entries a fs input).result.map (Report.write format) := by
  simp only [run,h]
  rw [Outcome.result_bind]
  cases (entries a fs input).result <;> rfl

theorem run_eq_ok_iff {a : Arguments} {fs : FileSystem} {input : ByteArray} {report : Text} :
    (run a fs input).result = .ok report ↔
      ∃ format es, Report.Format.ofName? a.format = some format ∧
        (entries a fs input).result = .ok es ∧ report = Report.write format es := by
  cases hf : Report.Format.ofName? a.format with
  | none =>
    have hr : (run a fs input).result = .error (.unknownFormat a.format) := by
      simp only [run,hf]
      rfl
    simp [hr]
  | some format =>
    rw [result_run a fs input hf]
    cases (entries a fs input).result <;> simp [Except.map,eq_comm]

end Command

end DocTags
