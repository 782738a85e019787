import DocTags.VariableDeclaration

/-! The errors of reading annotations. -/
namespace DocTags

inductive ReadError
  /-- The reference names no class, or an empty method. -/
  | emptyReference (method : Option Text)
  | invalidDeclaration (tag : Text) (fault : DeclarationFault)
  deriving DecidableEq

namespace ReadError

def methodHint : Option Text → Text
  | none => []
  | some [] => " (method name is empty)".toList
  | some m => " (method '".toList ++ m ++ "' given without a class)".toList

def message : ReadError → Text
  | emptyReference m =>
    "empty declaration reference: a class name is required".toList ++ methodHint m
  | invalidDeclaration tag fault =>
    "invalid declaration in @".toList ++ tag ++ ": ".toList ++ fault.message

end ReadError
end DocTags
