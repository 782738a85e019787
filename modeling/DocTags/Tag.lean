import DocTags.Text

/-! The tags of a text. Every at sign opens a segment that runs to the next at sign, line feed or the
end of the text, without the blanks at its end; a segment is a key with a value, a bare key, or
neither. A second pair of scanners finds the occurrences of one key without cutting the text. -/
namespace DocTags

inductive Tag
  | valued (key raw : Text)
  | bare (key : Text)
  /-- A segment that does not start with a key, or goes on behind the key without a space. -/
  | malformed (segment : Text)
  deriving DecidableEq

namespace Tag

/-- A carriage return counts as a blank, so a line may end in one before its line feed. -/
def isBlank (c : Char) : Bool := c = ' ' || c = '\t' || c = '\r'

def isTerminator (c : Char) : Bool := c = '@' || c = '\n'

def isKeyChar (c : Char) : Bool := c.isAlphanum || c = '_' || c = '-'

def isKey (s : Text) : Bool := !s.isEmpty && s.all isKeyChar

def afterAts : Text → List Text
  | [] => []
  | c :: r => if c = '@' then r :: afterAts r else afterAts r

def body (s : Text) : Text := Text.trimEnd isBlank (s.takeWhile fun c => !isTerminator c)

def segments (s : Text) : List Text := (afterAts s).map body

/-- Splits a segment at its first space if a key stands before it. -/
def ofSegment (s : Text) : Tag :=
  let whole := if isKey s then bare s else malformed s
  match Text.cut? [' '] s with
  | some (key,raw) => if isKey key then valued key raw else whole
  | none => whole

def all (s : Text) : List Tag := (segments s).map ofSegment

/-- Whether only blanks stand between the key and the next terminator or the end of the text. -/
def isBareAt (key s : Text) : Bool :=
  match key.isPrefixOf? s with
  | some r =>
    match r.dropWhile isBlank with
    | [] => true
    | c :: _ => isTerminator c
  | none => false

def hasBare (s key : Text) : Bool := (afterAts s).any (isBareAt key)

def valueAt? (key s : Text) : Option Text :=
  match key.isPrefixOf? s with
  | some (c :: r) => if c = ' ' then some (body r) else none
  | _ => none

def valuesOf (s key : Text) : List Text := (afterAts s).filterMap (valueAt? key)

theorem length_afterAts (s : Text) : (afterAts s).length = s.count '@' := by
  induction s with
  | nil => rfl
  | cons c r ih => by_cases h : c = '@' <;> simp [afterAts,h,ih]

theorem length_all (s : Text) : (all s).length = s.count '@' := by
  simp [all,segments,length_afterAts]

end Tag
end DocTags
