import DocTags.Proofs.DeclarationItems
import DocTags.Proofs.SelectedPaths

/-! When a run fails. Over inputs that can be read there are three reasons: a target without a name, a
target that no source declares, and a tag with a value that declares nothing. -/
namespace DocTags

theorem Text.eq_toUtf8 {bytes : ByteArray} {s : Text} (h : Text.ofUtf8? bytes = some s) :
    bytes = Text.toUtf8 s := by
  obtain ⟨str,hs,rfl⟩ := Option.map_eq_some_iff.mp h
  unfold String.fromUTF8? at hs
  split at hs
  · obtain rfl := Option.some.inj hs
    rw [Text.toUtf8,String.ofList_toList]
    rfl
  · cases hs

theorem Query.exists_read_iff {q : Query} {c : Text} :
    (∃ reading, q.read (.ofText c) = .ok reading) ↔
      ∀ tag, q = .declarations tag →
        ∀ v ∈ VariableDeclaration.items ((Reader.ofText c).lookup tag).1,
          ∃ n, n ≠ [] ∧ v = .string n := by
  cases q with
  | everything => simp [Query.read]
  | value k => simp [Query.read]
  | declarations tag =>
    have hr : (∃ reading, (Query.declarations tag).read (.ofText c) = .ok reading) ↔
        ∃ ds, VariableDeclaration.ofTag ((Reader.ofText c).lookup tag).1 = .ok ds := by
      show (∃ reading, ((VariableDeclaration.ofTag ((Reader.ofText c).lookup tag).1).mapError
        _).map _ = .ok reading) ↔ _
      cases VariableDeclaration.ofTag ((Reader.ofText c).lookup tag).1 <;>
        simp [Except.map,Except.mapError]
    rw [hr,VariableDeclaration.ofTag,Outcome.exists_mapM_iff]
    simp [VariableDeclaration.exists_ofValue_iff]

namespace Command

theorem exists_entryOf_iff {q : Query} {x : SourceIndex} {file : Option Text} {r : Reference} :
    (∃ e, entryOf q x file r = .ok e) ↔
      r.isEmpty = false ∧ ∃ reading, q.read (.ofText (x.comment r)) = .ok reading := by
  cases hr : r.isEmpty with
  | true => simp [entryOf_of_isEmpty hr]
  | false =>
    rw [entryOf_of_not_isEmpty hr]
    cases q.read (.ofText (x.comment r)) <;> simp [Except.map,Except.mapError]

section

variable {fs : FileSystem} {q : Query} {target : Option Reference} {ps : List Bytes}

theorem exists_mapM_declared_iff :
    (∃ es, (declared fs target ps).mapM (Declared.entry q) = .ok es) ↔
      ∀ p ∈ ps, ∀ s, fs.source? p = some s → ∀ r ∈ reported target (.ofText s),
        r.isEmpty = false ∧
          ∃ reading, q.read (.ofText ((SourceIndex.ofText s).comment r)) = .ok reading := by
  simp only [Outcome.exists_mapM_iff,mem_declared,Declared.entry,exists_entryOf_iff]
  exact ⟨fun h p hp s hs r hr => h ⟨p,s,r⟩ ⟨hp,hs,hr⟩,fun h d hd => h d.path hd.1 d.source hd.2.1
    d.reference hd.2.2⟩

theorem declared_eq_nil_iff : declared fs target ps = [] ↔
    ∀ p ∈ ps, ∀ s, fs.source? p = some s → reported target (.ofText s) = [] := by
  simp only [declared,List.flatMap_eq_nil_iff]
  refine forall₂_congr fun p _ => ?_
  unfold declaredAt
  cases fs.source? p <;> simp

theorem mem_reported_some {r r' : Reference} {x : SourceIndex} :
    r' ∈ reported (some r) x ↔ r' = r ∧ r ∈ x.references := by
  by_cases h : r ∈ x.references <;> simp [reported,h]

theorem reported_some_eq_nil_iff {r : Reference} {x : SourceIndex} :
    reported (some r) x = [] ↔ r ∉ x.references := by
  by_cases h : r ∈ x.references <;> simp [reported,h]

end

section

variable {fs : FileSystem} {files : List Text} (hr : ∀ a ∈ files, (fs.source? a.bytes).isSome)
include hr

theorem exists_file_of_readable {a : Text} (ha : a ∈ files) :
    ∃ content, fs.find? a.bytes = some (.file content) := by
  obtain ⟨s,hs⟩ := Option.isSome_iff_exists.mp (hr a ha)
  exact FileSystem.exists_file_of_source? hs

theorem result_selectAll_files :
    (FileSelection.selectAll fs files).result = .ok (Path.arrange (files.map Text.bytes)) := by
  have he : ∀ a ∈ files, (fs.find? a.bytes).isSome := by
    intro a ha
    obtain ⟨content,hf⟩ := exists_file_of_readable hr ha
    simp [hf]
  have hn : files.findSome? (FileSelection.refusal? fs) = none := by
    refine List.findSome?_eq_none_iff.mpr fun a ha => ?_
    obtain ⟨content,hf⟩ := exists_file_of_readable hr ha
    simp only [FileSelection.refusal?,hf]
  have hs : files.flatMap (FileSelection.pathsOf fs) = files.flatMap fun a => [a.bytes] := by
    refine List.flatMap_congr fun a ha => ?_
    obtain ⟨content,hf⟩ := exists_file_of_readable hr ha
    simp only [FileSelection.pathsOf,hf]
  rw [FileSelection.result_selectAll he hn,FileSelection.selected,hs,List.map_eq_flatMap]

theorem forall_arrange_iff {P : Text → Prop} :
    (∀ p ∈ Path.arrange (files.map Text.bytes), ∀ s, fs.source? p = some s → P s) ↔
      ∀ a ∈ files, ∀ s, fs.source? a.bytes = some s → P s := by
  constructor
  · intro h a ha s hs
    obtain ⟨p,hp,hc⟩ := Path.exists_same_mem_arrange (List.mem_map_of_mem ha)
    obtain ⟨b,hb,rfl⟩ := List.mem_map.mp (Path.mem_of_mem_arrange hp)
    obtain ⟨content,hf⟩ := exists_file_of_readable hr ha
    obtain ⟨content',hf'⟩ := exists_file_of_readable hr hb
    have hsame := FileSystem.find?_eq_of_components hc hf' hf
    refine h b.bytes hp s ?_
    rw [← hs]
    exact FileSystem.source?_eq_of_find? (by rw [hf,hf',hsame])
  · intro h p hp
    obtain ⟨a,ha,rfl⟩ := List.mem_map.mp (Path.mem_of_mem_arrange hp)
    exact h a ha

end

section

variable {fs : FileSystem} {q : Query} {w s : Text}

theorem exists_entries_alone_iff :
    (∃ es, (entries ⟨[],none,q,w⟩ fs (Text.toUtf8 s)).result = .ok es) ↔
      ∃ reading, q.read (.ofText s) = .ok reading := by
  have hd : (entries ⟨[],none,q,w⟩ fs (Text.toUtf8 s)).result =
      (rawEntry q s).map fun e => [e] := by
    simp only [entries,List.isEmpty_nil,if_true,inputEntries,Text.ofUtf8?_toUtf8]
    cases rawEntry q s <;> rfl
  rw [hd,rawEntry]
  cases q.read (.ofText s) <;> simp [Except.map,Except.mapError,bind,Except.bind,pure,Except.pure]

theorem exists_entries_input_iff {t : Text} :
    (∃ es, (entries ⟨[],some t,q,w⟩ fs (Text.toUtf8 s)).result = .ok es) ↔
      (Reference.ofText t).isEmpty = false ∧ .ofText t ∈ (SourceIndex.ofText s).references ∧
        ∃ reading, q.read (.ofText ((SourceIndex.ofText s).comment (.ofText t))) = .ok reading := by
  have hd : (∃ es, (entries ⟨[],some t,q,w⟩ fs (Text.toUtf8 s)).result = .ok es) ↔
      ∃ e, targetEntry q s t = .ok e := by
    simp only [entries,List.isEmpty_nil,if_true,inputEntries_target]
    show (∃ es, (targetEntry q s t).map _ = .ok es) ↔ _
    cases targetEntry q s t <;> simp [Except.map]
  rw [hd,targetEntry]
  cases he : (Reference.ofText t).isEmpty with
  | true => simp
  | false =>
    by_cases hm : .ofText t ∈ (SourceIndex.ofText s).references
    · simp [hm,exists_entryOf_iff,he]
    · simp [hm]

variable {files : List Text} (hf : files ≠ []) (hr : ∀ a ∈ files, (fs.source? a.bytes).isSome)
  {input : ByteArray}
include hf hr

theorem exists_entries_listing_iff :
    (∃ es, (entries ⟨files,none,q,w⟩ fs input).result = .ok es) ↔
      ∀ a ∈ files, ∀ s, fs.source? a.bytes = some s → ∀ r ∈ (SourceIndex.ofText s).references,
        (SourceIndex.ofText s).comment r ≠ [] →
          ∃ reading, q.read (.ofText ((SourceIndex.ofText s).comment r)) = .ok reading := by
  rw [result_listing hf,result_selectAll_files hr]
  show (∃ es, (declared fs none (Path.arrange (files.map Text.bytes))).mapM (Declared.entry q) =
    .ok es) ↔ _
  rw [exists_mapM_declared_iff,forall_arrange_iff hr]
  refine forall₂_congr fun p _ => forall₂_congr fun s _ => ?_
  simp only [reported,List.mem_filter,Bool.not_eq_true',List.isEmpty_eq_false_iff,and_imp]
  refine forall₃_congr fun r hm hc => ?_
  simp [(SourceIndex.named_of_mem_references hm).isEmpty]

theorem exists_entries_files_iff {t : Text} :
    (∃ es, (entries ⟨files,some t,q,w⟩ fs input).result = .ok es) ↔
      (Reference.ofText t).isEmpty = false ∧
      (∃ a ∈ files, ∃ s, fs.source? a.bytes = some s ∧
        .ofText t ∈ (SourceIndex.ofText s).references) ∧
      ∀ a ∈ files, ∀ s, fs.source? a.bytes = some s → .ofText t ∈ (SourceIndex.ofText s).references →
        ∃ reading, q.read (.ofText ((SourceIndex.ofText s).comment (.ofText t))) = .ok reading := by
  cases he : (Reference.ofText t).isEmpty with
  | true => simp [result_target_of_isEmpty hf fs input q w he]
  | false =>
    let ds := declared fs (some (.ofText t)) (Path.arrange (files.map Text.bytes))
    have hb : (∃ es, (entries ⟨files,some t,q,w⟩ fs input).result = .ok es) ↔
        ∃ es, ds.mapM (Declared.entry q) = .ok es ∧ es ≠ [] := by
      rw [result_target hf fs input q w he,result_selectAll_files hr]
      show (∃ es, (ds.mapM (Declared.entry q)).bind _ = .ok es) ↔ _
      cases ds.mapM (Declared.entry q) with
      | error f => simp [Except.bind]
      | ok es => cases es <;> simp [Except.bind]
    have hread : (∃ es, ds.mapM (Declared.entry q) = .ok es) ↔ _ := exists_mapM_declared_iff
    have hnil : ds = [] ↔ ∀ a ∈ files, ∀ s, fs.source? a.bytes = some s →
        .ofText t ∉ (SourceIndex.ofText s).references := by
      rw [declared_eq_nil_iff,forall_arrange_iff hr]
      simp only [reported_some_eq_nil_iff]
    have hes {es : List Entry} (h : ds.mapM (Declared.entry q) = .ok es) : es = [] ↔ ds = [] := by
      have hl := (Outcome.mapM_eq_ok_iff.mp h).length_eq
      rw [← List.length_eq_zero_iff,← List.length_eq_zero_iff,hl]
    simp only [mem_reported_some,and_imp,forall_eq,he,true_and] at hread
    rw [forall_arrange_iff hr] at hread
    rw [hb,← hread]
    constructor
    · rintro ⟨es,h,hne⟩
      refine ⟨rfl,?_,es,h⟩
      by_contra hn
      exact hne ((hes h).mpr (hnil.mpr fun a ha s hs hm => hn ⟨a,ha,s,hs,hm⟩))
    · rintro ⟨-,⟨a,ha,s,hs,hm⟩,es,h⟩
      exact ⟨es,h,fun hn => hnil.mp ((hes h).mp hn) a ha s hs hm⟩

end

inductive Reads (a : Arguments) (fs : FileSystem) (input : ByteArray) : Text → Prop
  | input {s : Text} (none : a.files = []) (text : Text.ofUtf8? input = some s) :
      Reads a fs input s
  | file {p s : Text} (given : p ∈ a.files) (text : fs.source? p.bytes = some s) :
      Reads a fs input s

/-- Whether all that a run has to read are files and input of valid UTF-8. -/
structure Readable (a : Arguments) (fs : FileSystem) (input : ByteArray) : Prop where
  input : a.files = [] → (Text.ofUtf8? input).isSome
  files : ∀ p ∈ a.files, (fs.source? p.bytes).isSome

/-- The comments that a run reads: a comment alone, the target's in every source that declares it, or
every comment there is. -/
inductive Consults (a : Arguments) (fs : FileSystem) (input : ByteArray) : Text → Prop
  | alone {s : Text} (files : a.files = []) (target : a.target = none)
      (text : Text.ofUtf8? input = some s) : Consults a fs input s
  | target {s t : Text} (reads : Reads a fs input s) (target : a.target = some t)
      (declared : .ofText t ∈ (SourceIndex.ofText s).references) :
      Consults a fs input ((SourceIndex.ofText s).comment (.ofText t))
  | listed {s : Text} {r : Reference} (files : a.files ≠ []) (reads : Reads a fs input s)
      (target : a.target = none) (declared : r ∈ (SourceIndex.ofText s).references)
      (comment : (SourceIndex.ofText s).comment r ≠ []) :
      Consults a fs input ((SourceIndex.ofText s).comment r)

section

variable {files : List Text} {target : Option Text} {q : Query} {w : Text} {fs : FileSystem}
  {input : ByteArray}

theorem reads_input_iff {s s' : Text} :
    Reads ⟨[],target,q,w⟩ fs (Text.toUtf8 s) s' ↔ s' = s := by
  constructor
  · rintro (⟨-,text⟩ | ⟨given,-⟩)
    · exact (Option.some.inj ((Text.ofUtf8?_toUtf8 s).symm.trans text)).symm
    · cases given
  · rintro rfl
    exact .input rfl (Text.ofUtf8?_toUtf8 s')

theorem reads_files_iff (hf : files ≠ []) {s : Text} :
    Reads ⟨files,target,q,w⟩ fs input s ↔ ∃ a ∈ files, fs.source? a.bytes = some s := by
  constructor
  · rintro (⟨none,-⟩ | ⟨given,text⟩)
    · exact absurd none hf
    · exact ⟨_,given,text⟩
  · rintro ⟨p,given,text⟩
    exact .file given text

variable {P : Text → Prop}

theorem forall_reads_files_iff (hf : files ≠ []) :
    (∀ s, Reads ⟨files,target,q,w⟩ fs input s → P s) ↔
      ∀ a ∈ files, ∀ s, fs.source? a.bytes = some s → P s := by
  simp only [reads_files_iff hf]
  exact ⟨fun h p hp s hs => h s ⟨p,hp,hs⟩,fun h s ⟨p,hp,hs⟩ => h p hp s hs⟩

theorem exists_reads_files_iff (hf : files ≠ []) :
    (∃ s, Reads ⟨files,target,q,w⟩ fs input s ∧ P s) ↔
      ∃ a ∈ files, ∃ s, fs.source? a.bytes = some s ∧ P s := by
  simp only [reads_files_iff hf]
  exact ⟨fun ⟨s,⟨p,hp,hs⟩,h⟩ => ⟨p,hp,s,hs,h⟩,fun ⟨p,hp,s,hs,h⟩ => ⟨s,⟨p,hp,hs⟩,h⟩⟩

theorem forall_consults_alone_iff {s : Text} :
    (∀ c, Consults ⟨[],none,q,w⟩ fs (Text.toUtf8 s) c → P c) ↔ P s := by
  constructor
  · exact fun h => h s (.alone rfl rfl (Text.ofUtf8?_toUtf8 s))
  · rintro h c (⟨-,-,text⟩ | ⟨-,target,-⟩ | ⟨files,-,-,-,-⟩)
    · rwa [← Option.some.inj ((Text.ofUtf8?_toUtf8 s).symm.trans text)]
    · cases target
    · exact absurd rfl files

theorem forall_consults_target_iff {t : Text} :
    (∀ c, Consults ⟨files,some t,q,w⟩ fs input c → P c) ↔
      ∀ s, Reads ⟨files,some t,q,w⟩ fs input s → .ofText t ∈ (SourceIndex.ofText s).references →
        P ((SourceIndex.ofText s).comment (.ofText t)) := by
  constructor
  · exact fun h s reads declared => h _ (.target reads rfl declared)
  · rintro h c (⟨-,target,-⟩ | ⟨reads,⟨⟩,declared⟩ | ⟨-,-,target,-,-⟩)
    · cases target
    · exact h _ reads declared
    · cases target

theorem forall_consults_listed_iff (hf : files ≠ []) :
    (∀ c, Consults ⟨files,none,q,w⟩ fs input c → P c) ↔
      ∀ s, Reads ⟨files,none,q,w⟩ fs input s → ∀ r ∈ (SourceIndex.ofText s).references,
        (SourceIndex.ofText s).comment r ≠ [] → P ((SourceIndex.ofText s).comment r) := by
  constructor
  · exact fun h s reads r declared comment => h _ (.listed hf reads rfl declared comment)
  · rintro h c (⟨files,-,-⟩ | ⟨-,target,-⟩ | ⟨-,reads,-,declared,comment⟩)
    · exact absurd files hf
    · cases target
    · exact h _ reads _ declared comment

end

theorem exists_entries_iff {a : Arguments} {fs : FileSystem} {input : ByteArray}
    (h : Readable a fs input) :
    (∃ es, (entries a fs input).result = .ok es) ↔
      (∀ t, a.target = some t → (Reference.ofText t).isEmpty = false ∧
        ∃ s, Reads a fs input s ∧ .ofText t ∈ (SourceIndex.ofText s).references) ∧
      ∀ c, Consults a fs input c → ∃ reading, a.query.read (.ofText c) = .ok reading := by
  obtain ⟨files,target,q,w⟩ := a
  by_cases hf : files = []
  · subst hf
    obtain ⟨s,hs⟩ := Option.isSome_iff_exists.mp (h.input rfl)
    obtain rfl := Text.eq_toUtf8 hs
    cases target with
    | none => simp [exists_entries_alone_iff,forall_consults_alone_iff]
    | some t =>
      rw [exists_entries_input_iff,forall_consults_target_iff]
      simp only [reads_input_iff,Option.some.injEq,forall_eq',forall_eq,exists_eq_left,and_assoc]
      exact and_congr_right fun _ => and_congr_right fun hm => (imp_iff_right hm).symm
  · cases target with
    | none =>
      rw [exists_entries_listing_iff hf h.files,forall_consults_listed_iff hf,
        forall_reads_files_iff hf]
      simp only [reduceCtorEq,false_imp_iff,implies_true,true_and]
    | some t =>
      rw [exists_entries_files_iff hf h.files,forall_consults_target_iff,forall_reads_files_iff hf]
      simp only [Option.some.injEq,forall_eq',exists_reads_files_iff hf,and_assoc]

inductive FailureReason (a : Arguments) (fs : FileSystem) (input : ByteArray) : Prop
  /-- The target has no class, or a method without a name. -/
  | emptyTarget {t : Text} (target : a.target = some t)
      (empty : (Reference.ofText t).className = [] ∨ (Reference.ofText t).method = some [])
  /-- No text that is read declares the target. -/
  | undeclared {t : Text} (target : a.target = some t)
      (nowhere : ∀ s, Reads a fs input s → .ofText t ∉ (SourceIndex.ofText s).references)
  /-- A value of the tag in a comment that is read is no text, or an empty one. -/
  | declaresNothing {tag c : Text} {v : Value} (query : a.query = .declarations tag)
      (consults : Consults a fs input c)
      (item : v ∈ VariableDeclaration.items ((Reader.ofText c).lookup tag).1)
      (nothing : ¬ ∃ n, n ≠ [] ∧ v = .string n)

theorem not_exists_entries_iff {a : Arguments} {fs : FileSystem} {input : ByteArray}
    (h : Readable a fs input) :
    (¬ ∃ es, (entries a fs input).result = .ok es) ↔ FailureReason a fs input := by
  rw [exists_entries_iff h]
  simp only [Query.exists_read_iff]
  constructor
  · intro hn
    by_contra hr
    refine hn ⟨fun t ht => ⟨?_,?_⟩,fun c hc tag hq v hv => ?_⟩
    · have he := fun he => hr (.emptyTarget ht he)
      simpa [Reference.isEmpty] using he
    · by_contra hs
      exact hr (.undeclared ht fun s hreads hm => hs ⟨s,hreads,hm⟩)
    · by_contra hv'
      exact hr (.declaresNothing hq hc hv hv')
  · rintro (⟨ht,he⟩ | ⟨ht,hn⟩ | ⟨hq,hc,hv,hbad⟩) ⟨htarget,hread⟩
    · have hempty := (htarget _ ht).1
      rcases he with he | he <;> simp [Reference.isEmpty,he] at hempty
    · obtain ⟨s,hreads,hm⟩ := (htarget _ ht).2
      exact hn s hreads hm
    · exact hbad (hread _ hc _ hq _ hv)

/-- A run over inputs that can be read fails for one of the three reasons and for no other, and a run
that fails prints nothing. -/
theorem run_fails_iff {a : Arguments} {fs : FileSystem} {input : ByteArray}
    (hw : a.format ∈ ["json","text","txt"].map String.toList) (hr : Readable a fs input) :
    let finish := (run a fs input).finish
    (finish.status = 1 ↔ FailureReason a fs input) ∧ (finish.status ≠ 1 → finish.status = 0) ∧
      (finish.status = 1 → finish.output = []) := by
  intro finish
  obtain ⟨format,hformat⟩ : ∃ format, Report.Format.ofName? a.format = some format := by
    simp only [List.map_cons,List.map_nil,List.mem_cons,List.not_mem_nil,or_false] at hw
    rcases hw with hw | hw | hw <;> rw [hw] <;> exact ⟨_,rfl⟩
  have hrun := result_run a fs input hformat
  rw [← not_exists_entries_iff hr]
  cases he : (entries a fs input).result with
  | ok es =>
    rw [he] at hrun
    have hs : finish.status = 0 := (Outcome.finish_of_ok hrun).1
    simp [hs]
  | error f =>
    rw [he] at hrun
    obtain ⟨hs,ho⟩ := Outcome.finish_of_error hrun
    simp [finish,hs,ho]

def bareSource : Text := "/** @var */\nclass B".toList

def sourceThenBare : FileSystem :=
  FileSystem.ofPaths [
    ("/srv/a".toList,some (Text.toUtf8 "/** @var int $n */\nclass A".toList)),
    ("b".toList,some (Text.toUtf8 bareSource))]

def variablesIn (files : List Text) : Arguments :=
  ⟨files,none,.declarations "var".toList,"text".toList⟩

theorem run_fails_iff_sourceThenBare :
    let first := variablesIn ["../srv/a".toList]
    let both := variablesIn ["../srv/a".toList,"b".toList]
    (run first sourceThenBare ByteArray.empty).result = .ok "../srv/a A\n  int $n\n".toList ∧
    (run both sourceThenBare ByteArray.empty).finish.status = 1 ∧
    (run both sourceThenBare ByteArray.empty).finish.output = [] := by
  intro first both
  have hr : Readable both sourceThenBare ByteArray.empty := by
    refine ⟨by simp [both,variablesIn],fun p hp => ?_⟩
    simp only [both,variablesIn,List.mem_cons,List.not_mem_nil,or_false] at hp
    rcases hp with rfl | rfl <;> decide
  have hs : sourceThenBare.source? (Text.bytes "b".toList) = some bareSource := by
    have hf (x y : ByteArray) :
        (FileSystem.ofPaths [("/srv/a".toList,some x),("b".toList,some y)]).find?
          (Text.bytes "b".toList) = some (.file (.ok y)) := rfl
    rw [FileSystem.source?,FileSystem.read,sourceThenBare,hf]
    simp only [Text.ofUtf8?_toUtf8,Except.toOption]
  have hx : SourceIndex.ofText bareSource = ⟨[(⟨['B'],none⟩,"/** @var".toList)]⟩ :=
    (SourceIndex.ofText_eq_index bareSource).trans rfl
  have hc : Consults both sourceThenBare ByteArray.empty "/** @var".toList := by
    have hl := @Consults.listed both sourceThenBare ByteArray.empty bareSource ⟨['B'],none⟩
      (by simp [both,variablesIn]) (.file (by simp [both,variablesIn]) hs) rfl
    rw [hx] at hl
    exact hl (by decide) (by decide)
  have hv : FailureReason both sourceThenBare ByteArray.empty := by
    have hi : VariableDeclaration.items
        ((Reader.ofText "/** @var".toList).lookup "var".toList).1 = [.bool true] := rfl
    refine .declaresNothing rfl hc (hi ▸ List.mem_singleton_self _) ?_
    simp
  obtain ⟨hiff,-,hout⟩ := run_fails_iff (by decide) hr
  have hone := hiff.mpr hv
  refine ⟨?_,hone,hout hone⟩
  have hp : (FileSelection.selectAll sourceThenBare first.files).result =
      .ok [Text.bytes "../srv/a".toList] := by
    rw [result_selectAll_files (by decide)]
    exact congrArg _ (Path.arrange_eq (by decide) (by decide) (by decide))
  have hf : first.files ≠ [] := List.cons_ne_nil _ _
  rw [result_run _ _ _ rfl]
  show (entries ⟨first.files,none,first.query,first.format⟩ sourceThenBare ByteArray.empty).result.map
    _ = _
  rw [result_listing hf,hp]
  decide +kernel

end Command
end DocTags
