import DocTags.Proofs.SelectedPaths
import DocTags.Proofs.LookupPaths
import Mathlib.Data.List.Count

/-! What a run without a target lists can be asked for. A run that names a listed target over the same
files gives what was listed for it, and beside that only declarations without a comment. -/
namespace DocTags

namespace Reader

theorem scan_nil (k : Text) : scan [] k = none := by
  have hb : Tag.hasBare [] k = false := rfl
  have hv : Tag.valuesOf [] k = [] := rfl
  simp [scan,hb,hv]

end Reader

theorem Query.exists_read_nil (q : Query) : ∃ reading, q.read (.ofText []) = .ok reading := by
  cases q with
  | everything => exact ⟨_,rfl⟩
  | value k => exact ⟨_,rfl⟩
  | declarations tag =>
    have hl : ((Reader.ofText []).lookup tag).1 = none := by
      rw [Reader.lookup_fresh,Reader.scan_nil]
    refine ⟨.declarations [],?_⟩
    show ((VariableDeclaration.ofTag ((Reader.ofText []).lookup tag).1).mapError _).map _ = _
    rw [hl]
    rfl

namespace Command

section

variable {q : Query} {x : SourceIndex} {p : Text} {r : Reference} {e : Entry}

theorem target_of_entryOf {file : Option Text} (h : entryOf q x file r = .ok e) :
    e.file = file ∧ e.target = r.toText := by
  obtain ⟨reading,-,rfl⟩ := exists_reading_of_entryOf h
  exact ⟨rfl,rfl⟩

theorem exists_entryOf_of_comment_eq_nil {file : Option Text} (hr : r.isEmpty = false)
    (hc : x.comment r = []) : ∃ e, entryOf q x file r = .ok e := by
  obtain ⟨reading,hq⟩ := q.exists_read_nil
  rw [entryOf_of_not_isEmpty hr,hc,hq]
  exact ⟨_,rfl⟩

end

theorem reported_target {s : Text} {r : Reference} (hr : r.Named) :
    reported (some r) (SourceIndex.ofText s) =
      (SourceIndex.ofText s).references.filter fun r' => r'.toText = r.toText := by
  have hf : ((SourceIndex.ofText s).references.filter fun r' => r'.toText = r.toText) =
      (SourceIndex.ofText s).references.filter fun r' => r' = r := by
    refine List.filter_congr fun r' hm => decide_eq_decide.mpr ?_
    exact (SourceIndex.named_of_mem_references hm).toText_eq_iff hr
  rw [hf,List.filter_eq,reported]
  by_cases hm : r ∈ (SourceIndex.ofText s).references
  · have hc := List.nodup_iff_count_eq_one.mp (SourceIndex.nodup_references s) r hm
    simp [hm,hc]
  · simp [hm,List.count_eq_zero.mpr hm]

/-- The entries, of those of some declarations, that stand for one with a comment. -/
def documented (ds : List Declared) (es : List Entry) : List Entry :=
  ((ds.zip es).filter fun de => !de.1.comment.isEmpty).map Prod.snd

section

variable {fs : FileSystem} {q : Query} {r : Reference}

/-- The target is declared with a comment where it is listed. -/
theorem filter_declared (hr : r.Named) (ps : List Bytes) :
    ((declared fs (some r) ps).filter fun d => !d.comment.isEmpty) =
      (declared fs none ps).filter fun d => d.reference.toText = r.toText := by
  rw [declared,declared,List.filter_flatMap,List.filter_flatMap]
  refine List.flatMap_congr fun p _ => ?_
  unfold declaredAt
  cases fs.source? p with
  | none => rfl
  | some s =>
    simp only [reported_target hr]
    simp only [reported,List.filter_map,Function.comp_def,Declared.comment]
    rw [List.filter_comm]

theorem Declared.target_of_entry {d : Declared} {e : Entry} (h : d.entry q = .ok e) :
    e.target = d.reference.toText :=
  (target_of_entryOf h).2

theorem exists_mapM_target (hr : r.Named) {ps : List Bytes} {es : List Entry}
    (h : (declared fs none ps).mapM (Declared.entry q) = .ok es) :
    ∃ es', (declared fs (some r) ps).mapM (Declared.entry q) = .ok es' ∧
      documented (declared fs (some r) ps) es' = es.filter fun e => e.target = r.toText := by
  have hd : ∀ d ∈ declared fs (some r) ps, ∃ e, d.entry q = .ok e := by
    intro d hd
    cases hc : d.comment.isEmpty with
    | true =>
      exact exists_entryOf_of_comment_eq_nil (named_of_mem_declared hd).isEmpty
        (List.isEmpty_iff.mp hc)
    | false =>
      have hm : d ∈ (declared fs (some r) ps).filter fun d => !d.comment.isEmpty :=
        List.mem_filter.mpr ⟨hd,by simp [hc]⟩
      rw [filter_declared hr] at hm
      exact Outcome.exists_mapM_iff.mp ⟨es,h⟩ d (List.mem_of_mem_filter hm)
  obtain ⟨es',h'⟩ := Outcome.exists_mapM_iff.mpr hd
  have hl := Outcome.mapM_filter (q := fun e => e.target = r.toText)
    (p := fun d => d.reference.toText = r.toText) h
    fun d _ e he => by rw [Declared.target_of_entry he]
  have hl' := Outcome.mapM_filter_zip (p := fun d : Declared => !d.comment.isEmpty) h'
  rw [filter_declared hr] at hl'
  exact ⟨es',h',Except.ok.inj (hl'.symm.trans hl)⟩

theorem exists_named_of_listed {ps : List Bytes} {es : List Entry}
    (h : (declared fs none ps).mapM (Declared.entry q) = .ok es) {e : Entry} (he : e ∈ es) :
    ∃ r : Reference, r.Named ∧ e.target = r.toText := by
  obtain ⟨d,hd,hf⟩ := Outcome.exists_of_mem_mapM h he
  exact ⟨d.reference,named_of_mem_declared hd,Declared.target_of_entry hf⟩

end

section

variable {files : List Text} (hf : files ≠ []) {fs : FileSystem} {input : ByteArray} {q : Query}
  {w : Text}
include hf

theorem exists_entries_target {ps : List Bytes} {es : List Entry}
    (hs : (FileSelection.selectAll fs files).result = .ok ps)
    (h : (declared fs none ps).mapM (Declared.entry q) = .ok es) {t : Text}
    (ht : t ∈ es.map Entry.target) :
    ∃ es', (entries ⟨files,some t,q,w⟩ fs input).result = .ok es' ∧
      (declared fs (some (.ofText t)) ps).mapM (Declared.entry q) = .ok es' ∧
      documented (declared fs (some (.ofText t)) ps) es' = es.filter fun e => e.target = t := by
  obtain ⟨e,he,rfl⟩ := List.mem_map.mp ht
  obtain ⟨r,hr,het⟩ := exists_named_of_listed h he
  obtain ⟨es',hes',hfilter⟩ := exists_mapM_target hr h
  rw [het,hr.ofText_toText]
  have hne : es'.isEmpty = false := by
    cases es' with
    | cons e' es' => rfl
    | nil =>
      have hm : e ∈ es.filter fun e => e.target = r.toText :=
        List.mem_filter.mpr ⟨he,decide_eq_true het⟩
      rw [← hfilter,documented,List.zip_nil_right] at hm
      cases hm
  refine ⟨es',?_,hes',hfilter⟩
  have hempty : (Reference.ofText r.toText).isEmpty = false := by rw [hr.ofText_toText,hr.isEmpty]
  rw [result_target hf fs input q w hempty,hs,hr.ofText_toText]
  simp only [Except.bind,hes',hne]
  rfl

/-- A run over files without a target that succeeds lists targets, and each of them can be asked for:
the run over the same files with the target succeeds, and its entries that stand for a declaration with a
comment are those that were listed for the target, in the same order. -/
theorem run_target_of_listed {report : Text}
    (h : (run ⟨files,none,q,w⟩ fs input).result = .ok report) :
    ∃ format ps es, Report.Format.ofName? w = some format ∧
      (FileSelection.selectAll fs files).result = .ok ps ∧
      (entries ⟨files,none,q,w⟩ fs input).result = .ok es ∧ report = Report.write format es ∧
      ∀ t ∈ es.map Entry.target, ∃ es',
        (entries ⟨files,some t,q,w⟩ fs input).result = .ok es' ∧
        (run ⟨files,some t,q,w⟩ fs input).result = .ok (Report.write format es') ∧
        List.Forall₂ (fun d e => d.entry q = .ok e) (declared fs (some (.ofText t)) ps) es' ∧
        documented (declared fs (some (.ofText t)) ps) es' = es.filter fun e => e.target = t := by
  obtain ⟨format,es,hw,hes,hr⟩ := run_eq_ok_iff.mp h
  have hl := hes
  rw [result_listing hf] at hl
  cases hs : (FileSelection.selectAll fs files).result with
  | error f =>
    rw [hs] at hl
    cases hl
  | ok ps =>
    rw [hs] at hl
    refine ⟨format,ps,es,hw,rfl,hes,hr,fun t ht => ?_⟩
    obtain ⟨es',hes',hm,hfilter⟩ := exists_entries_target hf hs hl ht
    exact ⟨es',hes',run_eq_ok_iff.mpr ⟨format,es',hw,hes',rfl⟩,Outcome.mapM_eq_ok_iff.mp hm,hfilter⟩

end

def sharedClass : FileSystem :=
  FileSystem.ofPaths [
    ("/srv/a".toList,some (Text.toUtf8 "/** @get x */\nclass A".toList)),
    ("b".toList,some (Text.toUtf8 "class A".toList))]

def bothFiles (target : Option Text) : Arguments :=
  ⟨["b".toList,"../srv/a".toList],target,.value "get".toList,"text".toList⟩

theorem run_target_of_listed_sharedClass :
    let ps := ["../srv/a","b"].map fun p => Text.bytes p.toList
    (run (bothFiles none) sharedClass ByteArray.empty).result = .ok "../srv/a A\n  x\n".toList ∧
    (run (bothFiles (some "A".toList)) sharedClass ByteArray.empty).result =
      .ok "../srv/a A\n  x\nb A\n  (not found)\n".toList ∧
    ∃ es es', (entries (bothFiles none) sharedClass ByteArray.empty).result = .ok es ∧
      (entries (bothFiles (some "A".toList)) sharedClass ByteArray.empty).result = .ok es' ∧
      documented (declared sharedClass (some (.ofText "A".toList)) ps) es' =
        es.filter fun e => e.target = "A".toList := by
  intro ps
  have hs : (FileSelection.selectAll sharedClass ["b".toList,"../srv/a".toList]).result = .ok ps := by
    rw [FileSelection.result_selectAll (by decide) (by decide)]
    exact congrArg _ (Path.arrange_eq (by decide) (by decide) (by decide))
  have hr : (run (bothFiles none) sharedClass ByteArray.empty).result =
      .ok "../srv/a A\n  x\n".toList := by
    rw [result_run _ _ _ rfl,bothFiles,result_listing (List.cons_ne_nil _ _),hs]
    decide +kernel
  have hr' : (run (bothFiles (some "A".toList)) sharedClass ByteArray.empty).result =
      .ok "../srv/a A\n  x\nb A\n  (not found)\n".toList := by
    rw [result_run _ _ _ rfl,bothFiles,result_target (List.cons_ne_nil _ _) _ _ _ _ (by decide),hs]
    decide +kernel
  have ht : (entries (bothFiles none) sharedClass ByteArray.empty).result.map
      (List.map Entry.target) = .ok ["A".toList] := by
    rw [bothFiles,result_listing (List.cons_ne_nil _ _),hs]
    decide +kernel
  obtain ⟨format,ps',es,-,hps,hes,-,hask⟩ := run_target_of_listed (List.cons_ne_nil _ _) hr
  obtain rfl : ps' = ps := Except.ok.inj (hps.symm.trans hs)
  have hm : es.map Entry.target = ["A".toList] :=
    Except.ok.inj ((congrArg (Except.map _) hes).symm.trans ht)
  obtain ⟨es',hes',-,-,hfilter⟩ := hask "A".toList (by simp [hm])
  exact ⟨hr,hr',es,es',hes,hes',hfilter⟩

end Command

end DocTags
