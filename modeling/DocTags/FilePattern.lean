import DocTags.FileSystem

/-! Patterns for paths: question marks, stars, bracketed classes of characters, and two stars alone in
a component for any number of folders. -/
namespace DocTags
namespace FilePattern

inductive CharRange
  | single (c : Char)
  | between (low high : Char)
  deriving DecidableEq

def CharRange.contains (x : Char) : CharRange → Bool
  | single c => x = c
  | between low high => low ≤ x && x ≤ high

def ranges : Text → List CharRange
  | a :: '-' :: b :: r => .between a b :: ranges r
  | a :: r => .single a :: ranges r
  | [] => []

inductive Piece
  | char (c : Char)
  | anyChar
  | anyText
  | within (rs : List CharRange)
  | outside (rs : List CharRange)
  | anyFolders
  deriving DecidableEq

inductive Fault
  | wildcards
  | folders
  | range
  deriving DecidableEq

structure PatternError where
  place : Nat
  fault : Fault
  deriving DecidableEq

def Fault.message : Fault → Text
  | wildcards => "wildcards are either regular \x60*\x60 or recursive \x60**\x60".toList
  | folders => "recursive wildcards must form a single path component".toList
  | range => "invalid range pattern".toList

def PatternError.message (e : PatternError) : Text :=
  "Pattern syntax error near position ".toList ++ Nat.toDigits 10 e.place ++ ": ".toList ++
    e.fault.message

/-- Reads a class from behind its opening bracket. Its first character, after an exclamation mark that
turns the class around, may be a closing bracket. -/
def class? : Text → Option (Piece × Text)
  | '!' :: c :: r => (Text.cut? [']'] r).map fun p => (.outside (ranges (c :: p.1)),p.2)
  | ['!'] => none
  | c :: r => (Text.cut? [']'] r).map fun p => (.within (ranges (c :: p.1)),p.2)
  | [] => none

/-- Reads the piece at place `i`, where a component starts or not. Two stars take the slash behind
them along. -/
def piece (i : Nat) (start : Bool) (c : Char) (r : Text) : Except PatternError (Piece × Text) :=
  if c = '?' then .ok (.anyChar,r)
  else if c = '*' then
    let stars := 1+(r.takeWhile (· = '*')).length
    let rest := r.dropWhile (· = '*')
    if 2 < stars then .error ⟨i+2,.wildcards⟩
    else if stars = 1 then .ok (.anyText,rest)
    else if !start then .error ⟨i-1,.folders⟩
    else match rest with
      | [] => .ok (.anyFolders,[])
      | '/' :: rest => .ok (.anyFolders,rest)
      | _ => .error ⟨i+2,.folders⟩
  else if c = '[' then
    match class? r with
    | some p => .ok p
    | none => .error ⟨i,.range⟩
  else .ok (.char c,r)

/-- The pieces of a pattern. Each one takes a character at least, so the length of the text bounds
their number. -/
def piecesFrom : (fuel i : Nat) → (start : Bool) → Text → Except PatternError (List Piece)
  | 0,_,_,_ => .ok []
  | _,_,_,[] => .ok []
  | fuel+1,i,start,c :: r => do
    let (p,rest) ← piece i start c r
    let ps ← piecesFrom fuel (i+(r.length+1-rest.length)) (p = .anyFolders || c = '/') rest
    pure (p :: ps)

def pieces (s : Text) : Except PatternError (List Piece) := piecesFrom s.length 0 true s

inductive Component
  | literal (name : Text)
  | wild (ps : List Piece)
  | anyFolders
  deriving DecidableEq

def literal? : List Piece → Option Text
  | [] => some []
  | .char c :: ps => (literal? ps).map (c :: ·)
  | _ => none

def Component.ofPieces (ps : List Piece) : Component :=
  match literal? ps with
  | some n => .literal n
  | none => if ps = [.anyFolders] then .anyFolders else .wild ps

def Piece.accepts (x : Char) : Piece → Bool
  | char c => x = c
  | within rs => rs.any (·.contains x)
  | outside rs => !rs.any (·.contains x)
  | _ => true

/-- Whether a piece for any text stands here: true from every place that a true one follows. -/
def anyLater : List Bool → List Bool
  | [] => []
  | b :: bs =>
    let later := anyLater bs
    (b || later.headD false) :: later

def afterAccepted (p : Piece) : Text → List Bool → List Bool
  | x :: s,_ :: bs => (p.accepts x && bs.headD false) :: afterAccepted p s bs
  | _,_ => [false]

/-- For each ending of the text, the longest first, whether the pieces match it. Every piece is tried
once at every place. -/
def table : List Piece → Text → List Bool
  | [],s => List.replicate s.length false ++ [true]
  | .anyText :: ps,s | .anyFolders :: ps,s => anyLater (table ps s)
  | p :: ps,s => afterAccepted p s (table ps s)

def matchesName (ps : List Piece) (s : Text) : Bool := (table ps s).headD false

def Component.matchesName (name : Bytes) (c : Component) : Bool :=
  (Text.ofBytes? name).any fun s => match c with
    | literal n => s = n
    | wild ps => FilePattern.matchesName ps s
    | anyFolders => true

end FilePattern

structure FilePattern where
  components : List FilePattern.Component
  absolute : Bool
  folderOnly : Bool

namespace FilePattern

/-- Neighbouring components for any number of folders count once. -/
def mergeFolders : List Component → List Component
  | .anyFolders :: cs =>
    match mergeFolders cs with
    | .anyFolders :: ds => .anyFolders :: ds
    | ds => .anyFolders :: ds
  | c :: cs => c :: mergeFolders cs
  | [] => []

def componentTexts (s : Text) : List Text :=
  let texts := s.splitOn '/'
  if texts.getLast? = some [] ∧ 1 < texts.length then texts.dropLast else texts

/-- Reads a pattern. It must be sound as a whole and in each component, whose errors count places from
its own start. -/
def ofText (s : Text) : Except PatternError FilePattern := do
  let _ ← pieces s
  let absolute := s.head? = some '/'
  let cs ← (componentTexts (if absolute then s.drop 1 else s)).mapM pieces
  pure ⟨mergeFolders (cs.map Component.ofPieces),absolute,s.getLast? = some '/'⟩

end FilePattern
end DocTags
