import DocTags.Text

/-! Patterns in source texts and the search for all their matches from left to right. Blanks are
spaces and tabs, so a declaration never runs over the end of its line. -/
namespace DocTags
namespace SourcePattern

/-- A pattern tells, from whether a place starts a line and from the text there, what it captures and
the text behind the match. -/
abbrev Pattern (α : Type) := (lineStart : Bool) → Text → Option (α × Text)

structure Match (α : Type) where
  start : Nat
  stop : Nat
  found : α

/-- The matches that do not overlap, found from left to right. The text starts at place `i`, and its
first `skip` characters belong to a match already. -/
def findFrom {α : Type} (p : Pattern α) : (i skip : Nat) → (lineStart : Bool) → Text → List (Match α)
  | _,_,_,[] => []
  | i,skip+1,_,c :: r => findFrom p (i+1) skip (c == '\n') r
  | i,0,lineStart,c :: r =>
    match p lineStart (c :: r) with
    | some (x,rest) =>
      let n := r.length+1-rest.length
      ⟨i,i+n,x⟩ :: findFrom p (i+1) (n-1) (c == '\n') r
    | none => findFrom p (i+1) 0 (c == '\n') r

def findAll {α : Type} (p : Pattern α) (s : Text) : List (Match α) := findFrom p 0 0 true s

def isGap (c : Char) : Bool := c = ' ' || c = '\t'

def skipGap (s : Text) : Text := s.dropWhile isGap

def gap? : Text → Option Text
  | c :: r => if isGap c then some (skipGap r) else none
  | [] => none

def word? (words : List Text) (s : Text) : Option Text :=
  (words.findSome? (·.isPrefixOf? s)).bind gap?

/-- The characters before the next line feed. No word runs over the end of its line, so they bound the
number of words that follow each other. -/
def lineLength (s : Text) : Nat := (s.takeWhile (· ≠ '\n')).length

def skipWords (words : List Text) : (fuel : Nat) → Text → Text
  | 0,s => s
  | fuel+1,s =>
    match word? words s with
    | some r => skipWords words fuel r
    | none => s

def isNameStart (c : Char) : Bool := c.isAlpha || c = '_'

def isNameChar (c : Char) : Bool := c.isAlphanum || c = '_'

def name? : Text → Option (Text × Text)
  | c :: r =>
    if isNameStart c then some (c :: r.takeWhile isNameChar,r.dropWhile isNameChar) else none
  | [] => none

def docOpen : Text := "/**".toList

def docClose : Text := "*/".toList

/-- A doc comment; captures what stands between its delimiters. -/
def docComment : Pattern Text := fun _ s => (docOpen.isPrefixOf? s).bind (Text.cut? docClose)

def classModifiers : List Text := ["abstract","final","readonly"].map String.toList

def classKeywords : List Text := ["class","interface","trait","enum"].map String.toList

def functionModifiers : List Text :=
  ["public","protected","private","static","abstract","final"].map String.toList

def functionKeywords : List Text := ["function".toList]

def classDeclaration : Pattern Text := fun lineStart s =>
  if lineStart then do
    let r ← word? classKeywords (skipWords classModifiers (lineLength s) (skipGap s))
    name? r
  else none

/-- A function that returns a reference has an ampersand before its name. -/
def functionDeclaration : Pattern Text := fun lineStart s =>
  if lineStart then do
    let r ← word? functionKeywords (skipWords functionModifiers (lineLength s) (skipGap s))
    match r with
    | '&' :: r => name? (skipGap r)
    | r => name? r
  else none

def classEnd : Pattern Unit := fun lineStart s =>
  match s with
  | '\x7d' :: r => if lineStart then some ((),r) else none
  | _ => none

end SourcePattern
end DocTags
