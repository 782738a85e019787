import DocTags.SourceIndex

/-! The declarations of a source text, read line by line. A line is judged by its words: the open
class is all that one line leaves to the next. -/
namespace DocTags
namespace LineScan

open SourcePattern SourceIndex

/-- The words of a line between runs of blanks, and what the line starts with when it is blank. -/
def words : Text → List Text
  | [] => [[]]
  | c :: r =>
    if isGap c then
      match words r with
      | [] :: ws => [] :: ws
      | ws => [] :: ws
    else match words r with
      | w :: ws => (c :: w) :: ws
      | [] => [[c]]

def lineWords (line : Text) : List Text := words (skipGap line)

def wordName? (w : Text) : Option Text := (name? w).map Prod.fst

def className? (line : Text) : Option Text :=
  match (lineWords line).dropWhile (classModifiers.contains ·) with
  | keyword :: name :: _ => if classKeywords.contains keyword then wordName? name else none
  | _ => none

/-- The function that a line declares: modifiers, a keyword, perhaps an ampersand, which may stand
alone, and a name. -/
def functionName? (line : Text) : Option Text :=
  match (lineWords line).dropWhile (functionModifiers.contains ·) with
  | keyword :: name :: rest =>
    if functionKeywords.contains keyword then
      match name,rest with
      | ['&'],name :: _ => wordName? name
      | '&' :: name,_ => wordName? name
      | name,_ => wordName? name
    else none
  | _ => none

def landmark? (line : Text) : Option Landmark :=
  match className? line,functionName? line with
  | some c,_ => some (.classDeclaration c)
  | none,some f => some (.functionDeclaration f)
  | none,none => if line.head? = some '\x7d' then some .classEnd else none

def scan (comment : Nat → Text) : (i : Nat) → List Text → Progress → Progress
  | _,[],p => p
  | i,line :: lines,p =>
    let p := match landmark? line with
      | some l => p.step comment (i,l)
      | none => p
    scan comment (i+line.length+1) lines p

def index (s : Text) : SourceIndex :=
  let comments := findAll docComment s
  ⟨(scan (commentAt s comments) 0 s.lines ⟨none,[]⟩).entries⟩

end LineScan
end DocTags
