import DocTags.FilePattern
import DocTags.ReadError
import DocTags.Reference

/-! Outcomes of a run: the warnings on the way, and a result or the failure that ended the run. -/
namespace DocTags

inductive Warning
  | noFiles (pattern : Text)
  /-- A file that cannot be read, or is not valid UTF-8. -/
  | skipped (path reason : Text)
  deriving DecidableEq

inductive Failure
  | unknownFormat (name : Text)
  | unreadableInput
  | undeclared (r : Reference)
  | unread (e : ReadError)
  | unreadComment (r : Reference) (e : ReadError)
  | badPattern (pattern : Text) (e : FilePattern.PatternError)
  | unlistable (folder reason : Text)
  deriving DecidableEq

def Warning.message : Warning → Text
  | noFiles p => "no files matched pattern=".toList ++ p
  | skipped p reason => "skipping unreadable file path=".toList ++ p ++ " error=".toList ++ reason

namespace Failure

def headline : Failure → Text
  | unknownFormat name => "unknown format: ".toList ++ name ++ ". Use json or text".toList
  | unreadableInput => "failed to read stdin".toList
  | undeclared r => "declaration not found: ".toList ++ r.toText
  | unread e => e.message
  | unreadComment r _ => "failed to read ".toList ++ r.toText
  | badPattern p _ => "invalid glob pattern: ".toList ++ p
  | unlistable p _ => "failed to read directory: ".toList ++ p

/-- Why it failed, where the headline does not say. -/
def cause? : Failure → Option Text
  | unreadableInput => some Text.invalidUtf8
  | unreadComment _ e => some e.message
  | badPattern _ e => some e.message
  | unlistable _ reason => some reason
  | _ => none

/-- Every line of a cause is indented by four spaces. -/
def indented (s : Text) : Text :=
  let margin := List.replicate 4 ' '
  margin ++ s.flatMap fun c => if c = '\n' then c :: margin else [c]

def message (f : Failure) : Text :=
  "Error: ".toList ++ f.headline ++
    match f.cause? with
    | some c => "\n\nCaused by:\n".toList ++ indented c
    | none => []

end Failure

structure Outcome (α : Type) where
  warnings : List Warning
  result : Except Failure α

structure Finish where
  status : UInt32
  output : Text
  notices : List Text

namespace Outcome

protected def pure {α : Type} (x : α) : Outcome α := ⟨[],.ok x⟩

def fail {α : Type} (f : Failure) : Outcome α := ⟨[],.error f⟩

def warn (w : Warning) : Outcome Unit := ⟨[w],.ok ()⟩

protected def bind {α β : Type} (o : Outcome α) (f : α → Outcome β) : Outcome β :=
  match o.result with
  | .ok x => ⟨o.warnings ++ (f x).warnings,(f x).result⟩
  | .error e => ⟨o.warnings,.error e⟩

instance : Monad Outcome where
  pure := Outcome.pure
  bind := Outcome.bind

def ofExcept {α : Type} (r : Except Failure α) : Outcome α := ⟨[],r⟩

/-- How a program with this outcome ends: a failure takes the place of the report. -/
def finish (o : Outcome Text) : Finish :=
  let warnings := o.warnings.map fun w => "WARN ".toList ++ w.message
  match o.result with
  | .ok report => ⟨0,report,warnings⟩
  | .error f => ⟨1,[],warnings ++ [f.message]⟩

/-- The lists that a run gives for each item, one after the other. -/
def collect {α β : Type} (f : α → Outcome (List β)) : List α → Outcome (List β)
  | [] => return []
  | x :: xs => do
    let ys ← f x
    let zs ← collect f xs
    return ys ++ zs

theorem result_bind {α β : Type} (o : Outcome α) (f : α → Outcome β) :
    (o >>= f).result = o.result.bind fun x => (f x).result := by
  change (Outcome.bind o f).result = _
  unfold Outcome.bind
  cases o.result <;> rfl

theorem finish_of_ok {o : Outcome Text} {report : Text} (h : o.result = .ok report) :
    o.finish.status = 0 ∧ o.finish.output = report := by
  simp [finish,h]

theorem finish_of_error {o : Outcome Text} {f : Failure} (h : o.result = .error f) :
    o.finish.status = 1 ∧ o.finish.output = [] := by
  simp [finish,h]

theorem collect_cons {α β : Type} (f : α → Outcome (List β)) (x : α) (xs : List α) :
    collect f (x :: xs) = f x >>= fun ys => collect f xs >>= fun zs => pure (ys ++ zs) := rfl

end Outcome
end DocTags
