import DocTags.WhiteSpace

/-! Texts as lists of characters, with the cuts that the readers share: trailing characters of a
class, the first place of a separator, line feeds. -/
namespace DocTags

abbrev Text := List Char

namespace Text

def trimEnd (p : Char → Bool) (s : Text) : Text := (s.reverse.dropWhile p).reverse

def trim (s : Text) : Text := trimEnd isWhiteSpace (s.dropWhile isWhiteSpace)

/-- What stands before and after the first place of the separator. -/
def cut? (sep : Text) : Text → Option (Text × Text)
  | [] => if sep.isEmpty then some ([],[]) else none
  | c :: r =>
    match sep.isPrefixOf? (c :: r) with
    | some rest => some ([],rest)
    | none => (cut? sep r).map fun p => (c :: p.1,p.2)

/-- The pieces of a text between its line feeds; a line feed at the end leaves an empty piece. -/
def lines : Text → List Text
  | [] => [[]]
  | c :: r =>
    if c = '\n' then [] :: lines r
    else match lines r with
      | [] => [[c]]
      | l :: ls => (c :: l) :: ls

def ofUtf8? (bytes : ByteArray) : Option Text := (String.fromUTF8? bytes).map String.toList

def invalidUtf8 : Text := "stream did not contain valid UTF-8".toList

def toUtf8 (s : Text) : ByteArray := (String.ofList s).toUTF8

theorem ofUtf8?_toUtf8 (s : Text) : ofUtf8? (toUtf8 s) = some s := by
  have h : String.fromUTF8? (String.ofList s).toUTF8 = some (String.ofList s) := by
    simp only [String.fromUTF8?]
    exact dif_pos (String.ofList s).isValidUTF8
  rw [ofUtf8?,toUtf8,h]
  simp

theorem trimEnd_append_singleton (p : Char → Bool) (s : Text) (c : Char) :
    trimEnd p (s ++ [c]) = if p c then trimEnd p s else s ++ [c] := by
  by_cases h : p c <;> simp [trimEnd,h]

end Text
end DocTags
