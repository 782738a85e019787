import DocTags.Text

/-! Command-line arguments. Four options with a value each stand between the files, in any order, and
two hyphens end the options. -/
namespace DocTags

inductive Query
  | everything
  | value (key : Text)
  | declarations (tag : Text)
  deriving DecidableEq

structure Arguments where
  files : List Text
  target : Option Text
  query : Query
  format : Text
  deriving DecidableEq

namespace Arguments

inductive Flag
  | target
  | key
  | declarations
  | format
  deriving DecidableEq

def Flag.ofShort? : Char → Option Flag
  | 't' => some target
  | 'k' => some key
  | 'd' => some declarations
  | 'f' => some format
  | _ => none

def Flag.ofLong? (name : Text) : Option Flag :=
  if name = "target".toList then some target
  else if name = "key".toList then some key
  else if name = "declarations".toList then some declarations
  else if name = "format".toList then some format
  else none

def flag? : Text → Option (Flag × Option Text)
  | '-' :: '-' :: s =>
    match Text.cut? ['='] s with
    | some (name,v) => (Flag.ofLong? name).map (·,some v)
    | none => (Flag.ofLong? s).map (·,none)
  | '-' :: c :: s =>
    (Flag.ofShort? c).map (·,match s with
      | [] => none
      | '=' :: v => some v
      | v => some v)
  | _ => none

/-- A hyphen with something behind it starts an option; a hyphen alone is a file or a value. -/
def looksLikeFlag : Text → Bool
  | '-' :: _ :: _ => true
  | _ => false

inductive Item
  | file (path : Text)
  | flag (f : Flag) (v : Text)
  deriving DecidableEq

/-- Splits arguments into items; fails at an unknown flag and at a flag without its value. -/
def items? : List Text → Option (List Item)
  | [] => some []
  | a :: as =>
    if a = ['-','-'] then some (as.map .file)
    else if looksLikeFlag a then
      match flag? a,as with
      | none,_ => none
      | some (f,some v),as => (items? as).map (.flag f v :: ·)
      | some (_,none),[] => none
      | some (f,none),v :: as =>
        if looksLikeFlag v then none else (items? as).map (.flag f v :: ·)
    else (items? as).map (.file a :: ·)

def valuesOf (f : Flag) (items : List Item) : List Text :=
  items.filterMap fun i => match i with
    | .flag g v => if g = f then some v else none
    | .file _ => none

def value? (f : Flag) (items : List Item) : Option (Option Text) :=
  match valuesOf f items with
  | [] => some none
  | [v] => some (some v)
  | _ => none

def defaultFormat : Text := "json".toList

/-- Refuses a flag given twice, and a key together with declarations. -/
def ofTexts? (args : List Text) : Option Arguments := do
  let items ← items? args
  let target ← value? .target items
  let key ← value? .key items
  let declarations ← value? .declarations items
  let format ← value? .format items
  let query ← match key,declarations with
    | none,none => some Query.everything
    | some k,none => some (.value k)
    | none,some d => some (.declarations d)
    | some _,some _ => none
  let files := items.filterMap fun i => match i with
    | .file p => some p
    | .flag _ _ => none
  pure ⟨files,target,query,format.getD defaultFormat⟩

end Arguments
end DocTags
