import DocTags.Value

/-! Variable declarations: values of tags such as `int $count rows to read`. -/
namespace DocTags

structure VariableDeclaration where
  type : Text
  name : Text
  deriving DecidableEq

inductive DeclarationFault
  | notString (kind : Text)
  | empty
  deriving DecidableEq

def DeclarationFault.message : DeclarationFault → Text
  | notString kind => "raw declaration must be a string, ".toList ++ kind ++ " given".toList
  | empty => "raw declaration cannot have zero length".toList

namespace VariableDeclaration

def defaultType : Text := "string".toList

/-- The text up to the first space is the type and the text from there to the second the name. A text
without a space is a name of the default type. -/
def ofText (raw : Text) : VariableDeclaration :=
  match Text.cut? [' '] raw with
  | some (type,rest) => ⟨type,rest.takeWhile (· ≠ ' ')⟩
  | none => ⟨defaultType,raw⟩

def ofValue : Value → Except DeclarationFault VariableDeclaration
  | .string [] => .error .empty
  | .string raw => .ok (ofText raw)
  | v => .error (.notString v.kind)

/-- The values that a tag declares with: none if it is absent or null, the items of a list, else its
value alone. -/
def items : Option Value → List Value
  | none | some .null => []
  | some (.list vs) => vs
  | some v => [v]

def ofTag (v : Option Value) : Except DeclarationFault (List VariableDeclaration) :=
  (items v).mapM ofValue

end VariableDeclaration
end DocTags
