import DocTags.Tag
import DocTags.ValueReader

/-! Annotations: the decoded occurrences of tags, grouped by key. Keys stand in order of their first
occurrence and the occurrences of a key in the order of the text. -/
namespace DocTags

abbrev Annotations := List (Text × List Value)

namespace Annotations

def add (k : Text) (v : Value) (es : Annotations) : Annotations :=
  KeyedList.put k ((es.lookup k).getD [] ++ [v]) es

/-- The key that a tag is recorded under and the value of the occurrence: true for a bare tag, null
for a malformed one. -/
def entryOf : Tag → Text × Value
  | .valued key raw => (key,.ofText raw)
  | .bare key => (key,.bool true)
  | .malformed segment => (segment,.null)

def ofTags (ts : List Tag) : Annotations :=
  ts.foldl (fun es t => add (entryOf t).1 (entryOf t).2 es) []

def ofText (s : Text) : Annotations := ofTags (Tag.all s)

def collapse : List Value → Value
  | [v] => v
  | vs => .list vs

/-- One value a key, as the fields of an object. -/
def fields (es : Annotations) : List (Text × Value) :=
  KeyedList.ofPairs (es.map fun e => (e.1,collapse e.2))

theorem lookup_add (k k' : Text) (v : Value) (es : Annotations) :
    (add k v es).lookup k' =
      if k' == k then some ((es.lookup k).getD [] ++ [v]) else es.lookup k' :=
  KeyedList.lookup_put k k' _ es

theorem keys_add (k : Text) (v : Value) (es : Annotations) :
    KeyedList.keys (add k v es) =
      if k ∈ KeyedList.keys es then KeyedList.keys es else KeyedList.keys es ++ [k] :=
  KeyedList.keys_put k _ es

end Annotations
end DocTags
