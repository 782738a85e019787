import DocTags.FloatText
import DocTags.NumberText
import DocTags.QuotedText

/-! The two texts of a value: compact on one line without spaces, and pretty with one item or field a
line, indented by two spaces a level. Both keep the order of fields as it stands. -/
namespace DocTags
namespace Value

mutual
def compact : Value → Text
  | null => "null".toList
  | bool true => "true".toList
  | bool false => "false".toList
  | int n => NumberText.write n
  | float x => FloatText.write x
  | string s => QuotedText.write s
  | list [] => ['[',']']
  | list (v :: vs) => '[' :: (compact v ++ compactItems vs)
  | object [] => ['{','}']
  | object ((k,v) :: fs) => '{' :: (QuotedText.write k ++ ':' :: (compact v ++ compactFields fs))

def compactItems : List Value → Text
  | [] => [']']
  | v :: vs => ',' :: (compact v ++ compactItems vs)

def compactFields : List (Text × Value) → Text
  | [] => ['}']
  | (k,v) :: fs => ',' :: (QuotedText.write k ++ ':' :: (compact v ++ compactFields fs))
end

def newLine (level : Nat) : Text := '\n' :: List.replicate (2*level) ' '

mutual
def pretty (level : Nat) : Value → Text
  | list (v :: vs) =>
    '[' :: (newLine (level+1) ++ (pretty (level+1) v ++ prettyItems level vs))
  | object ((k,v) :: fs) =>
    '{' :: (newLine (level+1) ++ (QuotedText.write k ++ ':' :: ' ' ::
      (pretty (level+1) v ++ prettyFields level fs)))
  | v => compact v

/-- The items after the first one and the closing bracket, which stands at the given level. -/
def prettyItems (level : Nat) : List Value → Text
  | [] => newLine level ++ [']']
  | v :: vs => ',' :: (newLine (level+1) ++ (pretty (level+1) v ++ prettyItems level vs))

def prettyFields (level : Nat) : List (Text × Value) → Text
  | [] => newLine level ++ ['}']
  | (k,v) :: fs =>
    ',' :: (newLine (level+1) ++ (QuotedText.write k ++ ':' :: ' ' ::
      (pretty (level+1) v ++ prettyFields level fs)))
end

end Value
end DocTags
