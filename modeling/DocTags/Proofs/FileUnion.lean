import DocTags.Proofs.ListedTargets
import DocTags.Proofs.SelectedPaths

/-! A run over files is the ordered union of what its single files give. It does not depend on the
order of the arguments, and files that cannot be read add nothing to it. -/
namespace DocTags

namespace Command

section

variable {fs : FileSystem} {q : Query} {target : Option Reference} {ps : List Bytes}

theorem declared_filter (ps : List Bytes) :
    declared fs target (ps.filter fun p => (fs.source? p).isSome) = declared fs target ps := by
  induction ps with
  | nil => rfl
  | cons p ps ih =>
    have hc : declared fs target (p :: ps) = declaredAt fs target p ++ declared fs target ps := rfl
    rw [List.filter_cons,hc]
    cases hs : fs.source? p with
    | some s =>
      rw [Option.isSome_some,if_pos rfl,← ih]
      rfl
    | none =>
      have hd : declaredAt fs target p = [] := by simp only [declaredAt,hs]
      rw [if_neg (by simp),hd,ih,List.nil_append]

theorem nodup_declared (hp : ps.Nodup) :
    ((declared fs none ps).map fun d => (d.path,d.reference)).Nodup := by
  rw [declared,List.map_flatMap,List.nodup_flatMap]
  constructor
  · intro p hp
    unfold declaredAt
    cases fs.source? p with
    | none => exact .nil
    | some s =>
      rw [List.map_map]
      exact ((SourceIndex.nodup_references s).filter _).map fun r r' h => (Prod.mk.inj h).2
  · refine hp.imp fun {p p'} hne k hk hk' => ?_
    obtain ⟨d,hd,rfl⟩ := List.mem_map.mp hk
    obtain ⟨d',hd',he⟩ := List.mem_map.mp hk'
    refine hne ?_
    rw [← (mem_declaredAt.mp hd).1,← (mem_declaredAt.mp hd').1]
    exact (Prod.mk.inj he).1.symm

theorem keys_of_mapM_entry {ds : List Declared} {es : List Entry}
    (h : ds.mapM (Declared.entry q) = .ok es) :
    (es.map fun e => (e.file,e.target)) =
      ds.map fun d => (some (Text.shown d.path),d.reference.toText) := by
  rw [← List.forall₂_eq_eq_eq,List.forall₂_map_left_iff,List.forall₂_map_right_iff]
  refine (Outcome.mapM_eq_ok_iff.mp h).flip.imp fun e d he => ?_
  rw [(target_of_entryOf he).1,(target_of_entryOf he).2]

/-- Where no two paths are shown alike, no two declarations are. -/
theorem nodup_keys_declared (hp : (ps.map Text.shown).Nodup) :
    ((declared fs none ps).map fun d => (some (Text.shown d.path),d.reference.toText)).Nodup := by
  refine List.Nodup.map_on ?_ (nodup_declared (List.Nodup.of_map _ hp)).of_map
  rintro ⟨p,s,r⟩ hd ⟨p',s',r'⟩ hd' h
  obtain ⟨hshown,htext⟩ := Prod.mk.inj h
  obtain ⟨hm,hs,-⟩ := mem_declared.mp hd
  obtain ⟨hm',hs',-⟩ := mem_declared.mp hd'
  obtain rfl : p = p' := List.inj_on_of_nodup_map hp hm hm' (Option.some.inj hshown)
  obtain rfl : s = s' := Option.some.inj (hs.symm.trans hs')
  obtain rfl : r = r' :=
    ((named_of_mem_declared hd).toText_eq_iff (named_of_mem_declared hd')).mp htext
  rfl

end

open FileSelection

section

variable {fs : FileSystem} {args : List Text} (hne : args ≠ [])
  (he : ∀ a ∈ args, (fs.find? a.bytes).isSome) (q : Query) (w : Text) (input : ByteArray)
include hne he

theorem result_listing_selected (hr : args.findSome? (refusal? fs) = none) :
    (entries ⟨args,none,q,w⟩ fs input).result =
      (declared fs none (selected fs args)).mapM (Declared.entry q) := by
  rw [result_listing hne,result_selectAll he hr]
  rfl

theorem result_listing_of_refused {f : Failure} (hr : args.findSome? (refusal? fs) = some f) :
    (entries ⟨args,none,q,w⟩ fs input).result = .error f := by
  rw [result_listing hne,result_selectAll_of_refused he hr]
  rfl

theorem result_listing_eq_ok_iff {es : List Entry} :
    (entries ⟨args,none,q,w⟩ fs input).result = .ok es ↔ args.findSome? (refusal? fs) = none ∧
      ∃ ess, List.Forall₂ (fun p es => (fileEntries fs q none p).result = .ok es)
        (selected fs args) ess ∧ es = ess.flatten := by
  cases hr : args.findSome? (refusal? fs) with
  | some f => simp [result_listing_of_refused hne he q w input hr]
  | none =>
    rw [result_listing_selected hne he q w input hr,← result_collect_fileEntries,
      Outcome.result_collect]
    simp only [← Outcome.mapM_eq_ok_iff,true_and]
    cases (selected fs args).mapM fun p => (fileEntries fs q none p).result <;>
      simp [Except.map,eq_comm]

/-- A listing fails at the first folder that is refused, or at the first file that fails. -/
theorem result_listing_eq_error_iff {f : Failure} :
    (entries ⟨args,none,q,w⟩ fs input).result = .error f ↔
      args.findSome? (refusal? fs) = some f ∨ args.findSome? (refusal? fs) = none ∧
        ∃ before p after, selected fs args = before ++ p :: after ∧
          (∀ b ∈ before, ∃ es, (fileEntries fs q none b).result = .ok es) ∧
          (fileEntries fs q none p).result = .error f := by
  cases hr : args.findSome? (refusal? fs) with
  | some f' => simp [result_listing_of_refused hne he q w input hr]
  | none =>
    rw [result_listing_selected hne he q w input hr,← result_collect_fileEntries,
      Outcome.result_collect]
    simp only [← Outcome.mapM_eq_error_iff,true_and,reduceCtorEq,false_or]
    cases (selected fs args).mapM fun p => (fileEntries fs q none p).result <;> simp [Except.map]

end

theorem result_listing_alone {fs : FileSystem} {a : Text} {content : Except Text ByteArray}
    (h : fs.find? a.bytes = some (.file content)) (q : Query) (w : Text) (input : ByteArray) :
    (entries ⟨[a],none,q,w⟩ fs input).result = (fileEntries fs q none a.bytes).result := by
  rw [result_listing (List.cons_ne_nil _ _),selectAll_file h,result_fileEntries]
  show (declared fs none [a.bytes]).mapM (Declared.entry q) = _
  rw [declared,List.flatMap_singleton]

theorem run_eq_error_iff {a : Arguments} {fs : FileSystem} {input : ByteArray} {f : Failure} :
    (run a fs input).result = .error f ↔
      (Report.Format.ofName? a.format = none ∧ f = .unknownFormat a.format) ∨
        (Report.Format.ofName? a.format).isSome ∧ (entries a fs input).result = .error f := by
  cases hw : Report.Format.ofName? a.format with
  | none =>
    have hrun : (run a fs input).result = .error (.unknownFormat a.format) := by
      simp only [run,hw]
      rfl
    simp [hrun,eq_comm]
  | some format =>
    rw [result_run a fs input hw]
    cases (entries a fs input).result <;> simp [Except.map]

theorem finish_eq_of_entries {files files' : List Text} {t : Option Text} {q : Query} {w : Text}
    {fs : FileSystem} {input : ByteArray}
    (h : ∀ es, (entries ⟨files,t,q,w⟩ fs input).result = .ok es ↔
      (entries ⟨files',t,q,w⟩ fs input).result = .ok es) :
    (run ⟨files,t,q,w⟩ fs input).finish.status = (run ⟨files',t,q,w⟩ fs input).finish.status ∧
      (run ⟨files,t,q,w⟩ fs input).finish.output =
        (run ⟨files',t,q,w⟩ fs input).finish.output := by
  have hr (report : Text) : (run ⟨files,t,q,w⟩ fs input).result = .ok report ↔
      (run ⟨files',t,q,w⟩ fs input).result = .ok report := by
    simp only [run_eq_ok_iff,h]
  cases hx : (run ⟨files,t,q,w⟩ fs input).result with
  | ok report =>
    obtain ⟨hs,ho⟩ := Outcome.finish_of_ok hx
    obtain ⟨hs',ho'⟩ := Outcome.finish_of_ok ((hr report).mp hx)
    exact ⟨hs.trans hs'.symm,ho.trans ho'.symm⟩
  | error f =>
    cases hx' : (run ⟨files',t,q,w⟩ fs input).result with
    | ok report => cases hx.symm.trans ((hr report).mpr hx')
    | error f' =>
      obtain ⟨hs,ho⟩ := Outcome.finish_of_error hx
      obtain ⟨hs',ho'⟩ := Outcome.finish_of_error hx'
      exact ⟨hs.trans hs'.symm,ho.trans ho'.symm⟩

/-- Whether an argument names a file that cannot be read, or is not valid UTF-8. -/
def Unreadable (fs : FileSystem) (a : Text) : Prop :=
  ∃ content, fs.find? a.bytes = some (.file content) ∧ fs.source? a.bytes = none

section

variable {fs : FileSystem} {args args' : List Text}

/-- Arguments that add nothing that can be read. -/
structure Extends (fs : FileSystem) (args args' : List Text) : Prop where
  subset : args ⊆ args'
  nothing : ∀ a ∈ args', a ∈ args ∨ Selects fs args a.bytes ∨ Unreadable fs a

namespace Extends

variable (h : Extends fs args args')
include h

theorem given_of_folder {a : Text} (ha : a ∈ args') {refusal : Option Text}
    {children : List (Bytes × FileSystem.Place)}
    (hf : fs.find? a.bytes = some (.folder refusal children)) : a ∈ args := by
  rcases h.nothing a ha with hm | hs | ⟨content,hc,-⟩
  · exact hm
  · obtain ⟨content,hc⟩ := hs.exists_file
    cases hf.symm.trans hc
  · cases hf.symm.trans hc

theorem find?_isSome (he : ∀ a ∈ args, (fs.find? a.bytes).isSome) :
    ∀ a ∈ args', (fs.find? a.bytes).isSome := by
  intro a ha
  rcases h.nothing a ha with hm | hs | ⟨content,hc,-⟩
  · exact he a hm
  · obtain ⟨content,hc⟩ := hs.exists_file
    simp [hc]
  · simp [hc]

theorem refused_iff :
    args'.findSome? (refusal? fs) = none ↔ args.findSome? (refusal? fs) = none := by
  simp only [List.findSome?_eq_none_iff]
  refine ⟨fun hr a ha => hr a (h.subset ha),fun hr a ha => ?_⟩
  by_contra hn
  have ha' := hn
  unfold refusal? at ha'
  split at ha'
  case h_1 reason children hf => exact hn (hr a (h.given_of_folder ha hf))
  case h_2 => exact ha' rfl

theorem selects_iff {p : Bytes} (hp : (fs.source? p).isSome) :
    Selects fs args' p ↔ Selects fs args p := by
  constructor
  · rintro (⟨given,found⟩ | ⟨given,found,child,source,extension⟩)
    · rcases h.nothing _ given with hm | hs | ⟨content,-,hn⟩
      · exact .file hm found
      · exact hs
      · simp [hn] at hp
    · exact .source (h.given_of_folder given found) found child source extension
  · rintro (⟨given,found⟩ | ⟨given,found,child,source,extension⟩)
    · exact .file (h.subset given) found
    · exact .source (h.subset given) found child source extension

theorem declared_selected (hs : SpelledOnce fs args) (hs' : SpelledOnce fs args') :
    declared fs none (selected fs args') = declared fs none (selected fs args) := by
  have hf : ((selected fs args').filter fun p => (fs.source? p).isSome) =
      (selected fs args).filter fun p => (fs.source? p).isSome := by
    refine Path.eq_of_pairwise_before (pairwise_selected.filter _) (pairwise_selected.filter _)
      fun p => ?_
    simp only [List.mem_filter,mem_selected hs,mem_selected hs']
    exact and_congr_left h.selects_iff
  rw [← declared_filter,hf,declared_filter]

theorem finish_eq (hne : args ≠ []) (he : ∀ a ∈ args, (fs.find? a.bytes).isSome)
    (hs : SpelledOnce fs args) (hs' : SpelledOnce fs args') (q : Query) (w : Text)
    (input : ByteArray) :
    (run ⟨args',none,q,w⟩ fs input).finish.status = (run ⟨args,none,q,w⟩ fs input).finish.status ∧
      (run ⟨args',none,q,w⟩ fs input).finish.output =
        (run ⟨args,none,q,w⟩ fs input).finish.output := by
  have hne' : args' ≠ [] := fun hn => hne (List.subset_nil.mp (hn ▸ h.subset))
  have he' := h.find?_isSome he
  refine finish_eq_of_entries fun es => ?_
  cases hr : args.findSome? (refusal? fs) with
  | none =>
    rw [result_listing_selected hne he q w input hr,
      result_listing_selected hne' he' q w input (h.refused_iff.mpr hr),h.declared_selected hs hs']
  | some f =>
    have hr' : args'.findSome? (refusal? fs) ≠ none := by simp [h.refused_iff,hr]
    obtain ⟨f',hr'⟩ := Option.ne_none_iff_exists'.mp hr'
    simp [result_listing_of_refused hne he q w input hr,
      result_listing_of_refused hne' he' q w input hr']

end Extends

variable (hne : args ≠ []) (he : ∀ a ∈ args, (fs.find? a.bytes).isSome) (hs : SpelledOnce fs args)
  (q : Query) (w : Text) (input : ByteArray)
include hne he hs

/-- A run over files and folders that exist is the ordered union of what the single files give: the
selected paths in strictly increasing order, each with the entries that it has alone. Besides an unknown
format and a folder that cannot be listed, only the first path that fails ends the run. Which arguments
select a path, in which order and how often, makes no difference, nor do files that cannot be read. Each
entry shows a path and a declaration of its own. -/
theorem run_eq_union :
    let listed files := (entries ⟨files,none,q,w⟩ fs input).result
    let report files := run ⟨files,none,q,w⟩ fs input
    let alone p := (fileEntries fs q none p).result
    let refused := args.findSome? (refusal? fs)
    let known := (Report.Format.ofName? w).isSome
    ∃ ps : List Bytes, ps.Pairwise Path.Before ∧ (∀ p, p ∈ ps ↔ Selects fs args p) ∧
      (∀ a : Text, a.bytes ∈ ps → listed [a] = alone a.bytes ∧
        (known → ∀ f, (report [a]).result = .error f ↔ alone a.bytes = .error f)) ∧
      (∀ es, listed args = .ok es ↔ refused = none ∧
        ∃ ess, List.Forall₂ (fun p es => alone p = .ok es) ps ess ∧ es = ess.flatten) ∧
      (∀ f, (report args).result = .error f ↔ (known = false ∧ f = .unknownFormat w) ∨
        known ∧ (refused = some f ∨ refused = none ∧
          ∃ before p after, ps = before ++ p :: after ∧
            (∀ b ∈ before, ∃ es, alone b = .ok es) ∧ alone p = .error f)) ∧
      (∀ es, listed args = .ok es →
        (∃ ks : List (Bytes × Reference), ks.Nodup ∧ (∀ k ∈ ks, k.1 ∈ ps) ∧
          (es.map fun e => (e.file,e.target)) = ks.map fun k => (some (Text.shown k.1),k.2.toText)) ∧
        ((ps.map Text.shown).Nodup → (es.map fun e => (e.file,e.target)).Nodup)) ∧
      ∀ args', SpelledOnce fs args' → Extends fs args args' →
        (report args').finish.status = (report args).finish.status ∧
          (report args').finish.output = (report args).finish.output := by
  intro listed report alone refused known
  refine ⟨selected fs args,pairwise_selected,fun p => mem_selected hs,?_,
    fun es => result_listing_eq_ok_iff hne he q w input,?_,?_,?_⟩
  · intro a ha
    obtain ⟨content,hf⟩ := ((mem_selected hs).mp ha).exists_file
    have ha := result_listing_alone hf q w input
    refine ⟨ha,fun hk f => ?_⟩
    have hw : Report.Format.ofName? w ≠ none := Option.isSome_iff_ne_none.mp hk
    rw [run_eq_error_iff,ha]
    simp [hw,Option.isSome_iff_ne_none,alone]
  · intro f
    rw [run_eq_error_iff,result_listing_eq_error_iff hne he q w input]
    simp only [known,Option.isSome_eq_false_iff,Option.isNone_iff_eq_none]
    exact Iff.rfl
  · intro es hes
    have hr := ((result_listing_eq_ok_iff hne he q w input).mp hes).1
    have hd : (declared fs none (selected fs args)).mapM (Declared.entry q) = .ok es :=
      (result_listing_selected hne he q w input hr).symm.trans hes
    have hn : (selected fs args).Nodup := pairwise_selected.imp Path.Before.ne
    constructor
    · refine ⟨_,@nodup_declared fs _ hn,?_,?_⟩
      · intro k hk
        obtain ⟨d,hm,rfl⟩ := List.mem_map.mp hk
        exact (mem_declared.mp hm).1
      · rw [keys_of_mapM_entry hd,List.map_map]
        rfl
    · intro hp
      rw [keys_of_mapM_entry hd]
      exact nodup_keys_declared hp
  · exact fun args' hs' hx => hx.finish_eq hne he hs hs' q w input

end

def mixedTree : FileSystem :=
  FileSystem.ofPaths [
    ("src/B.php".toList,some (Text.toUtf8 "/** @get b */\nclass B".toList)),
    ("src/notes".toList,some (Text.toUtf8 "/** @get c */\nclass C".toList)),
    ("src/A.inc".toList,some (Text.toUtf8 "/** @get a */\nclass A".toList)),
    ("/srv/bad".toList,some ⟨#[255]⟩)]

def getIn (files : List Text) (format : Text) : Arguments := ⟨files,none,.value "get".toList,format⟩

theorem run_eq_union_mixedTree :
    let src := ["../work/src".toList]
    let more := ["../work/src/B.php","../srv/bad","../work/src","../work/src"].map String.toList
    let report := "../work/src/A.inc A\n  a\n../work/src/B.php B\n  b\n".toList
    (run (getIn src "text".toList) mixedTree ByteArray.empty).result = .ok report ∧
      (run (getIn more "text".toList) mixedTree ByteArray.empty).finish.status = 0 ∧
      (run (getIn more "text".toList) mixedTree ByteArray.empty).finish.output = report := by
  intro src more report
  have hs : selected mixedTree src =
      ["../work/src/A.inc","../work/src/B.php"].map fun p => Text.bytes p.toList :=
    Path.arrange_eq (by decide) (by decide) (by decide)
  have hr : (run (getIn src "text".toList) mixedTree ByteArray.empty).result = .ok report := by
    rw [result_run _ _ _ rfl,getIn,result_listing_selected (List.cons_ne_nil _ _) (by decide) _ _ _
      (by decide),hs]
    decide +kernel
  have hx : Extends mixedTree src more := by
    refine ⟨by decide,fun a ha => ?_⟩
    simp only [more,List.map_cons,List.map_nil,List.mem_cons,List.not_mem_nil,or_false] at ha
    rcases ha with rfl | rfl | rfl | rfl
    · exact Or.inr (Or.inl (mem_flatMap_pathsOf.mp (by decide)))
    · exact Or.inr (Or.inr ⟨_,rfl,by decide⟩)
    · exact Or.inl (by decide)
    · exact Or.inl (by decide)
  obtain ⟨-,-,-,-,-,-,-,hsame⟩ := @run_eq_union mixedTree src (by decide) (by decide) (by decide)
    (.value "get".toList) "text".toList ByteArray.empty
  have hh := hsame more (by decide) hx
  have hf := Outcome.finish_of_ok hr
  exact ⟨hr,hh.1.trans hf.1,hh.2.trans hf.2⟩

def emptyFolder : FileSystem := FileSystem.ofPaths [("d".toList,none)]

def shutFolder : FileSystem :=
  FileSystem.ofLeaves FileSystem.someFolder
    [(Text.bytes "/work/d".toList,.folder (some "Permission denied (os error 13)".toList))]

def namesShownAlike : FileSystem :=
  let source : FileSystem.Nodes.Leaf := .file (.ok (Text.toUtf8 "/** @get a */\nclass A".toList))
  FileSystem.ofLeaves FileSystem.someFolder ([0xFE,0xFF].map fun b =>
    (Text.bytes "/work/d/".toList ++ b :: Text.bytes ".php".toList,source))

/-- Not every run is the union of the runs over its single files. With an unknown format, or over a
folder that cannot be listed, it fails though no file is selected; and two files whose names are no texts
can give entries that agree in file and target. -/
theorem run_ne_union :
    let d := ["d".toList]
    (∀ fs ∈ [emptyFolder,shutFolder,namesShownAlike],
      (fs.find? (Text.bytes "d".toList)).isSome ∧ SpelledOnce fs d) ∧
    (¬ ∃ p, Selects emptyFolder d p) ∧
    (run (getIn d "yaml".toList) emptyFolder ByteArray.empty).result =
      .error (.unknownFormat "yaml".toList) ∧
    (¬ ∃ p, Selects shutFolder d p) ∧
    (run (getIn d "text".toList) shutFolder ByteArray.empty).result =
      .error (.unlistable "d".toList "Permission denied (os error 13)".toList) ∧
    (entries (getIn d "text".toList) namesShownAlike ByteArray.empty).result.map
      (List.map fun e => (e.file,e.target)) =
        .ok (List.replicate 2 (some "d/\uFFFD.php".toList,"A".toList)) := by
  intro d
  have hn (fs : FileSystem) (h : d.flatMap (pathsOf fs) = []) : ¬ ∃ p, Selects fs d p := by
    rintro ⟨p,hp⟩
    simpa [h] using mem_flatMap_pathsOf.mpr hp
  refine ⟨by decide,hn _ (by decide),rfl,hn _ (by decide),rfl,?_⟩
  have hs : selected namesShownAlike d =
      [0xFE,0xFF].map fun b => Text.bytes "d/".toList ++ b :: Text.bytes ".php".toList :=
    Path.arrange_eq (by decide) (by decide) (by decide)
  rw [getIn,result_listing_selected (List.cons_ne_nil _ _) (by decide) _ _ _ (by decide),hs]
  decide +kernel

end Command
end DocTags
