import DocTags.NumberText
import DocTags.QuotedText

/-! Reading values. A text that is exactly one JSON value, with blanks around it, denotes that value
unless it nests too deep; any other annotation text stands for itself. -/
namespace DocTags
namespace ValueReader

def isSpace (c : Char) : Bool := c = ' ' || c = '\t' || c = '\n' || c = '\r'

def skipSpace (s : Text) : Text := s.dropWhile isSpace

def readKey? (s : Text) : Option (Text × Text) := do
  let (k,s) ← QuotedText.read? s
  match skipSpace s with
  | ':' :: s => some (k,s)
  | _ => none

mutual
/-- Reads one value from the front of the text, at most `depth` lists and objects deep; gives what
follows it too. -/
def readValue? : (fuel depth : Nat) → Text → Option (Value × Text)
  | 0,_,_ => none
  | fuel+1,depth,s =>
    match skipSpace s with
    | 'n' :: 'u' :: 'l' :: 'l' :: r => some (.null,r)
    | 't' :: 'r' :: 'u' :: 'e' :: r => some (.bool true,r)
    | 'f' :: 'a' :: 'l' :: 's' :: 'e' :: r => some (.bool false,r)
    | '"' :: r => (QuotedText.read? r).map fun p => (.string p.1,p.2)
    | '[' :: r =>
      match depth with
      | 0 => none
      | depth+1 =>
        match skipSpace r with
        | ']' :: r => some (.list [],r)
        | r => do
          let (v,r) ← readValue? fuel depth r
          let (vs,r) ← readItems? fuel depth r
          some (.list (v :: vs),r)
    | '{' :: r =>
      match depth with
      | 0 => none
      | depth+1 =>
        match skipSpace r with
        | '}' :: r => some (.object [],r)
        | '"' :: r => do
          let (k,r) ← readKey? r
          let (v,r) ← readValue? fuel depth r
          let (fs,r) ← readFields? fuel depth r
          some (.object (KeyedList.ofPairs ((k,v) :: fs)),r)
        | _ => none
    | s => NumberText.read? s

def readItems? : (fuel depth : Nat) → Text → Option (List Value × Text)
  | 0,_,_ => none
  | fuel+1,depth,s =>
    match skipSpace s with
    | ']' :: r => some ([],r)
    | ',' :: r => do
      let (v,r) ← readValue? fuel depth r
      let (vs,r) ← readItems? fuel depth r
      some (v :: vs,r)
    | _ => none

def readFields? : (fuel depth : Nat) → Text → Option (List (Text × Value) × Text)
  | 0,_,_ => none
  | fuel+1,depth,s =>
    match skipSpace s with
    | '}' :: r => some ([],r)
    | ',' :: r =>
      match skipSpace r with
      | '"' :: r => do
        let (k,r) ← readKey? r
        let (v,r) ← readValue? fuel depth r
        let (fs,r) ← readFields? fuel depth r
        some ((k,v) :: fs,r)
      | _ => none
    | _ => none
end

end ValueReader

namespace Value

/-- The value that the whole text denotes. Every step of the reader takes a character, so the length
of the text bounds their number. -/
def decode? (depth : Nat) (s : Text) : Option Value :=
  match ValueReader.readValue? (s.length+1) depth s with
  | some (v,r) => if (ValueReader.skipSpace r).isEmpty then some v else none
  | none => none

def depthLimit : Nat := 127

/-- The value of the text behind a key. Nothing and a plain `null` are null; a null written in any
other way stands for itself, as does a text that denotes no value. -/
def ofText (raw : Text) : Value :=
  if raw.isEmpty || raw == "null".toList then null
  else match decode? depthLimit raw with
    | none | some null => string raw
    | some v => v

end Value
end DocTags
