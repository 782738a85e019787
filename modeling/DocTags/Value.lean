import DocTags.KeyedList
import DocTags.Text

/-! Values of annotations: what a JSON text denotes. The fields of an object are a list of pairs, so
their order is kept. -/
namespace DocTags

inductive Value
  | null
  | bool (b : Bool)
  | int (n : Int)
  | float (x : Float)
  | string (s : Text)
  | list (items : List Value)
  | object (fields : List (Text × Value))
  deriving Inhabited

namespace Value

/-- The name of a value's kind, as messages give it. -/
def kind : Value → Text
  | null => "null".toList
  | bool _ => "boolean".toList
  | int _ | float _ => "number".toList
  | string _ => "string".toList
  | list _ => "array".toList
  | object _ => "object".toList

mutual
def depth : Value → Nat
  | list vs => itemsDepth vs + 1
  | object fs => fieldsDepth fs + 1
  | _ => 0

def itemsDepth : List Value → Nat
  | [] => 0
  | v :: vs => max (depth v) (itemsDepth vs)

def fieldsDepth : List (Text × Value) → Nat
  | [] => 0
  | (_,v) :: fs => max (depth v) (fieldsDepth fs)
end

end Value
end DocTags
