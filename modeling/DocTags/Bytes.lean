import DocTags.Text

/-! Texts as bytes. Paths and the names in folders are bytes, valid UTF-8 or not; what is no part of a
character is shown by a mark. -/
namespace DocTags

abbrev Bytes := List UInt8

namespace Text

def bytes (s : Text) : Bytes := s.flatMap String.utf8EncodeChar

def ofBytes? (bs : Bytes) : Option Text := ofUtf8? bs.toByteArray

def first? (bs : Bytes) : Option Char := bs.toByteArray.utf8DecodeChar? 0

def brokenMark : Char := '\uFFFD'

/-- How many bytes follow the first one of a character, and the bounds of the next one. -/
def following? (b : UInt8) : Option (Nat × UInt8 × UInt8) :=
  if 0xC2 ≤ b ∧ b ≤ 0xDF then some (1,0x80,0xBF)
  else if b = 0xE0 then some (2,0xA0,0xBF)
  else if b = 0xED then some (2,0x80,0x9F)
  else if 0xE1 ≤ b ∧ b ≤ 0xEF then some (2,0x80,0xBF)
  else if b = 0xF0 then some (3,0x90,0xBF)
  else if 0xF1 ≤ b ∧ b ≤ 0xF3 then some (3,0x80,0xBF)
  else if b = 0xF4 then some (3,0x80,0x8F)
  else none

/-- How many bytes behind a first one belong to a character that breaks off. -/
def brokenLength (b : UInt8) (bs : Bytes) : Nat :=
  match following? b,bs with
  | some (n,low,high),c :: cs =>
    if low ≤ c ∧ c ≤ high then
      1 + ((cs.take (n-2)).takeWhile fun d => 0x80 ≤ d && d ≤ 0xBF).length
    else 0
  | _,_ => 0

def shownBehind : (done : Nat) → Bytes → Text
  | _,[] => []
  | n+1,_ :: bs => shownBehind n bs
  | 0,b :: bs =>
    match first? (b :: bs) with
    | some c => c :: shownBehind (c.utf8Size-1) bs
    | none => brokenMark :: shownBehind (brokenLength b bs) bs

/-- The characters that the bytes encode, and a mark for each part that encodes none. -/
def shown (bs : Bytes) : Text := shownBehind 0 bs

theorem first?_append (c : Char) (bs : Bytes) :
    first? (String.utf8EncodeChar c ++ bs) = some c := by
  rw [first?,List.toByteArray_append,ByteArray.utf8DecodeChar?_utf8EncodeChar_append]

theorem shownBehind_append (xs bs : Bytes) : shownBehind xs.length (xs ++ bs) = shown bs := by
  induction xs with
  | nil => rfl
  | cons x xs ih => exact ih

theorem shown_append (c : Char) (bs : Bytes) :
    shown (String.utf8EncodeChar c ++ bs) = c :: shown bs := by
  have hf := first?_append c bs
  have hl := String.length_utf8EncodeChar c
  cases he : String.utf8EncodeChar c with
  | nil =>
    rw [he] at hl
    exact absurd hl (Nat.ne_of_lt c.utf8Size_pos)
  | cons x xs =>
    rw [he] at hf hl
    have hx : c.utf8Size - 1 = xs.length := by simp [← hl]
    rw [List.cons_append] at hf ⊢
    rw [shown,shownBehind,hf]
    simp only [hx,shownBehind_append]

theorem shown_bytes (s : Text) : shown (bytes s) = s := by
  induction s with
  | nil => rfl
  | cons c s ih =>
    have hb : bytes (c :: s) = String.utf8EncodeChar c ++ bytes s := rfl
    rw [hb,shown_append,ih]

/-- A byte of no character is shown by one mark, and so is a character that breaks off. -/
example : shown [0x61,0xFF,0xE2,0x82,0x62] = ['a',brokenMark,brokenMark,'b'] := by decide

end Text
end DocTags
