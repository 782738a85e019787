import DocTags.Command
import DocTags.Proofs.Landmarks

/-! Standard input and a file give the same run. A source with a target is read in one way, wherever
the source comes from: the file is no more than a label on the entry. -/
namespace DocTags

namespace Outcome

theorem pure_bind_eq {α β : Type} (x : α) (f : α → Outcome β) :
    (pure x : Outcome α) >>= f = f x := rfl

theorem collect_singleton {α β : Type} (f : α → Outcome (List β)) (x : α) :
    collect f [x] = f x := by
  show Outcome.bind (f x) (fun ys => ⟨[],.ok (ys ++ [])⟩) = f x
  obtain ⟨ws,r⟩ := f x
  cases r <;> simp [Outcome.bind]

end Outcome

namespace FileSelection

theorem selectAll_file {fs : FileSystem} {p : Text} {content : Except Text ByteArray}
    (h : fs.find? p.bytes = some (.file content)) : selectAll fs [p] = pure [p.bytes] := by
  have hs : select fs p = pure [p.bytes] := by simp only [select,h]
  have ha : Path.arrange [p.bytes] = [p.bytes] := by simp [Path.arrange,Path.dropRepeats]
  simp only [selectAll,Outcome.collect_singleton,hs,Outcome.pure_bind_eq,ha]

end FileSelection

namespace Entry

def inFile (p : Text) (e : Entry) : Entry := { e with file := some p }

end Entry

namespace Command

theorem entryOf_of_isEmpty {q : Query} {x : SourceIndex} {file : Option Text} {r : Reference}
    (h : r.isEmpty = true) :
    entryOf q x file r = .error (.unread (.emptyReference r.method)) := by
  simp only [entryOf,Reader.ofReference,h,if_true]
  rfl

theorem entryOf_of_not_isEmpty {q : Query} {x : SourceIndex} {file : Option Text} {r : Reference}
    (h : r.isEmpty = false) :
    entryOf q x file r = ((q.read (.ofText (x.comment r))).mapError (.unreadComment r)).map
      fun reading => ⟨file,r.toText,reading⟩ := by
  simp only [entryOf,Reader.ofReference,h]
  rfl

/-- Where a comment comes from is nothing but the label of its entry. -/
theorem entryOf_some (q : Query) (x : SourceIndex) (p : Text) (r : Reference) :
    entryOf q x (some p) r = (entryOf q x none r).map (Entry.inFile p) := by
  cases hr : r.isEmpty with
  | true =>
    simp only [entryOf_of_isEmpty hr]
    rfl
  | false =>
    simp only [entryOf_of_not_isEmpty hr]
    cases q.read (.ofText (x.comment r)) <;> rfl

/-- What a run with a target makes of one source. -/
def targetEntry (q : Query) (s t : Text) : Except Failure Entry :=
  let r := Reference.ofText t
  let x := SourceIndex.ofText s
  if r.isEmpty then .error (.unread (.emptyReference r.method))
  else if x.references.contains r then entryOf q x none r
  else .error (.undeclared r)

theorem exists_reading_of_entryOf {q : Query} {x : SourceIndex} {file : Option Text} {r : Reference}
    {e : Entry} (h : entryOf q x file r = .ok e) :
    ∃ reading, q.read (.ofText (x.comment r)) = .ok reading ∧ e = ⟨file,r.toText,reading⟩ := by
  cases hr : r.isEmpty with
  | true =>
    rw [entryOf_of_isEmpty hr] at h
    cases h
  | false =>
    rw [entryOf_of_not_isEmpty hr] at h
    cases hq : q.read (.ofText (x.comment r)) with
    | error f =>
      rw [hq] at h
      cases h
    | ok reading =>
      rw [hq] at h
      exact ⟨reading,rfl,(Except.ok.inj h).symm⟩

theorem entryOf_of_targetEntry {q : Query} {s t : Text} {e : Entry}
    (h : targetEntry q s t = .ok e) :
    entryOf q (SourceIndex.ofText s) none (Reference.ofText t) = .ok e := by
  simp only [targetEntry] at h
  split at h
  · cases h
  · split at h
    · exact h
    · cases h

theorem inputEntries_target (q : Query) (s t w : Text) :
    inputEntries ⟨[],some t,q,w⟩ (Text.toUtf8 s) = (targetEntry q s t).map fun e => [e] := by
  simp only [inputEntries,Text.ofUtf8?_toUtf8,targetEntry]
  cases he : (Reference.ofText t).isEmpty with
  | true => simp [entryOf_of_isEmpty he]; rfl
  | false =>
    cases hr : (SourceIndex.ofText s).references.contains (Reference.ofText t) with
    | true => simp; rfl
    | false => simp; rfl

theorem filesEntries_target {fs : FileSystem} {p s : Text}
    (h : fs.find? p.bytes = some (.file (.ok (Text.toUtf8 s)))) (q : Query) (t w : Text) :
    filesEntries ⟨[p],some t,q,w⟩ fs =
      Outcome.ofExcept ((targetEntry q s t).map fun e => [e.inFile p]) := by
  have hf : fileEntries fs q (some (.ofText t)) p.bytes =
      Outcome.ofExcept (sourceEntries q (some (.ofText t)) p s) := by
    simp only [fileEntries,FileSystem.read,h,Text.ofUtf8?_toUtf8,Text.shown_bytes]
  have hd : filesEntries ⟨[p],some t,q,w⟩ fs = (do
      if (Reference.ofText t).isEmpty then
        Outcome.fail (.unread (.emptyReference (Reference.ofText t).method))
      let entries ← Outcome.ofExcept (sourceEntries q (some (.ofText t)) p s)
      if entries.isEmpty then Outcome.fail (.undeclared (.ofText t))
      return entries) := by
    simp only [filesEntries,FileSelection.selectAll_file h,Option.map_some,Outcome.pure_bind_eq,
      Outcome.collect_singleton,hf]
  rw [hd,targetEntry]
  cases he : (Reference.ofText t).isEmpty with
  | true => rfl
  | false =>
    simp only [sourceEntries,reported]
    cases hr : (SourceIndex.ofText s).references.contains (Reference.ofText t) with
    | false => rfl
    | true =>
      simp only [if_true,List.mapM_cons,List.mapM_nil,entryOf_some]
      cases entryOf q (SourceIndex.ofText s) none (Reference.ofText t) <;> rfl

/-- A target is read from standard input as it is from a file that holds the same source. Both runs
fail, and for the same reason, or both report one entry with the same reading of the target's comment;
the file stands on the entry only if the source came from it. Neither run warns of anything. -/
theorem run_input_agrees_with_file {fs elsewhere : FileSystem} {p s : Text} {input : ByteArray}
    (h : fs.find? p.bytes = some (.file (.ok (Text.toUtf8 s)))) (q : Query) (t w : Text) :
    let onInput := run ⟨[],some t,q,w⟩ elsewhere (Text.toUtf8 s)
    let onFile := run ⟨[p],some t,q,w⟩ fs input
    let r := Reference.ofText t
    onInput.warnings = [] ∧ onFile.warnings = [] ∧
      ((∃ f, onInput.result = .error f ∧ onFile.result = .error f) ∨
        ∃ format reading, Report.Format.ofName? w = some format ∧
          q.read (.ofText ((SourceIndex.ofText s).comment r)) = .ok reading ∧
          onInput.result = .ok (Report.write format [⟨none,r.toText,reading⟩]) ∧
          onFile.result = .ok (Report.write format [⟨some p,r.toText,reading⟩])) := by
  have hi : entries ⟨[],some t,q,w⟩ elsewhere (Text.toUtf8 s) =
      Outcome.ofExcept ((targetEntry q s t).map fun e => [e]) := by
    simp only [entries,List.isEmpty_nil,if_true,inputEntries_target]
  have hf : entries ⟨[p],some t,q,w⟩ fs input =
      Outcome.ofExcept ((targetEntry q s t).map fun e => [e.inFile p]) := by
    simp only [entries,List.isEmpty_cons,Bool.false_eq_true,if_false,filesEntries_target h]
  simp only [run]
  cases hw : Report.Format.ofName? w with
  | none => exact ⟨rfl,rfl,Or.inl ⟨_,rfl,rfl⟩⟩
  | some format =>
    simp only [hi,hf]
    cases he : targetEntry q s t with
    | error f => exact ⟨rfl,rfl,Or.inl ⟨f,rfl,rfl⟩⟩
    | ok e =>
      obtain ⟨reading,hq,rfl⟩ := exists_reading_of_entryOf (entryOf_of_targetEntry he)
      exact ⟨rfl,rfl,Or.inr ⟨format,reading,rfl,hq,rfl,rfl⟩⟩

theorem run_of_padded_target :
    let s := "/** @get /users */\nclass A \x7b\n\x7d\n".toList
    let p : Text := "/src/../src/A.php".toList
    let fs := FileSystem.ofPaths [("/src/A.php".toList,some (Text.toUtf8 s))]
    let q := Query.value "get".toList
    let onInput := run ⟨[],some " A ".toList,q,"text".toList⟩ (.ofPaths []) (Text.toUtf8 s)
    let onFile := run ⟨[p],some " A ".toList,q,"text".toList⟩ fs ByteArray.empty
    fs.find? p.bytes = some (.file (.ok (Text.toUtf8 s))) ∧
      onInput.result = .ok "A\n  /users\n".toList ∧
      onFile.result = .ok "/src/../src/A.php A\n  /users\n".toList := by
  intro s p fs q onInput onFile
  have hp (bytes : ByteArray) :
      (FileSystem.ofPaths [("/src/A.php".toList,some bytes)]).find? p.bytes =
        some (.file (.ok bytes)) := rfl
  have h : fs.find? p.bytes = some (.file (.ok (Text.toUtf8 s))) := hp (Text.toUtf8 s)
  have hr : Reference.ofText " A ".toList = ⟨['A'],none⟩ := by decide
  have hx : SourceIndex.ofText s = ⟨[(⟨['A'],none⟩,"/** @get /users".toList)]⟩ :=
    (SourceIndex.ofText_eq_index s).trans rfl
  have he : targetEntry q s " A ".toList =
      .ok ⟨none,['A'],.value (some (.string "/users".toList))⟩ := by
    simp only [targetEntry,hr,hx]
    rfl
  have hi : onInput.result = .ok "A\n  /users\n".toList := by
    simp only [onInput,run,entries,List.isEmpty_nil,if_true,inputEntries_target,he]
    rfl
  have hh := @run_input_agrees_with_file fs (.ofPaths []) p s ByteArray.empty h q " A ".toList
    "text".toList
  obtain ⟨-,-,⟨f,hf,-⟩ | ⟨format,reading,hw,hq,-,hf⟩⟩ := hh
  · cases hi.symm.trans hf
  · rw [hr,hx] at hq
    cases hw
    cases hq
    exact ⟨h,hi,hf⟩

end Command

end DocTags
