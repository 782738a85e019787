import DocTags.Text

/-! Quoted texts. Writing escapes the quote, the backslash and the control characters below the
space; reading also takes the other short escapes and code points given as UTF-16 units. -/
namespace DocTags
namespace QuotedText

def escape (c : Char) : Text :=
  match c with
  | '"' => ['\\','"']
  | '\\' => ['\\','\\']
  | '\x08' => ['\\','b']
  | '\t' => ['\\','t']
  | '\n' => ['\\','n']
  | '\x0c' => ['\\','f']
  | '\r' => ['\\','r']
  | c =>
    if c.toNat < 0x20 then
      ['\\','u','0','0',Nat.digitChar (c.toNat/16),Nat.digitChar (c.toNat%16)]
    else [c]

def write (s : Text) : Text := '"' :: (s.flatMap escape ++ ['"'])

def unescape? : Char → Option Char
  | '"' => some '"'
  | '\\' => some '\\'
  | '/' => some '/'
  | 'b' => some '\x08'
  | 't' => some '\t'
  | 'n' => some '\n'
  | 'f' => some '\x0c'
  | 'r' => some '\r'
  | _ => none

def hexDigit? (c : Char) : Option Nat :=
  if '0' ≤ c ∧ c ≤ '9' then some (c.toNat - '0'.toNat)
  else if 'a' ≤ c ∧ c ≤ 'f' then some (c.toNat - 'a'.toNat + 10)
  else if 'A' ≤ c ∧ c ≤ 'F' then some (c.toNat - 'A'.toNat + 10)
  else none

def unit? (a b c d : Char) : Option Nat := do
  let a ← hexDigit? a
  let b ← hexDigit? b
  let c ← hexDigit? c
  let d ← hexDigit? d
  pure (((a*16+b)*16+c)*16+d)

def isHighSurrogate (u : Nat) : Bool := 0xD800 ≤ u && u < 0xDC00

def isLowSurrogate (u : Nat) : Bool := 0xDC00 ≤ u && u < 0xE000

def ofSurrogates (high low : Nat) : Char :=
  Char.ofNat (0x10000+(high-0xD800)*0x400+(low-0xDC00))

def after (c : Char) (p : Text × Text) : Text × Text := (c :: p.1,p.2)

/-- Reads from behind the opening quote; gives the text and what follows its closing quote. A
surrogate outside a pair and a control character below the space are refused. -/
def read? : Text → Option (Text × Text)
  | [] => none
  | '"' :: r => some ([],r)
  | '\\' :: 'u' :: a :: b :: c :: d :: r => do
    let u ← unit? a b c d
    if isHighSurrogate u then
      match r with
      | '\\' :: 'u' :: e :: f :: g :: h :: r => do
        let w ← unit? e f g h
        if isLowSurrogate w then (read? r).map (after (ofSurrogates u w)) else none
      | _ => none
    else if isLowSurrogate u then none
    else (read? r).map (after (Char.ofNat u))
  | '\\' :: c :: r => do (read? r).map (after (← unescape? c))
  | c :: r => if c = '\\' ∨ c.toNat < 0x20 then none else (read? r).map (after c)

theorem read?_plain {c : Char} (r : Text) (h : c ≠ '"') (h' : c ≠ '\\') (h'' : 0x20 ≤ c.toNat) :
    read? (c :: r) = (read? r).map (after c) := by
  rw [read?]
  · rw [if_neg (by simp [h',h''])]
  all_goals intros; simp_all

theorem read?_unit {a b : Char} {u : Nat} (r : Text) (hu : unit? '0' '0' a b = some u)
    (h : u < 0xD800) :
    read? ('\\' :: 'u' :: '0' :: '0' :: a :: b :: r) = (read? r).map (after (Char.ofNat u)) := by
  rw [read?,hu]
  simp [isHighSurrogate,isLowSurrogate,Nat.not_le.mpr h,show ¬ 0xDC00 ≤ u by omega]

theorem unit?_digitChar (n : Nat) (h : n < 0x20) :
    unit? '0' '0' (Nat.digitChar (n/16)) (Nat.digitChar (n%16)) = some n := by
  revert n
  decide

theorem read?_escape (c : Char) (r : Text) : read? (escape c ++ r) = (read? r).map (after c) := by
  unfold escape
  split
  case h_8 =>
    split
    · rename_i hc
      have h := read?_unit r (unit?_digitChar c.toNat hc) (by omega)
      rwa [Char.ofNat_toNat] at h
    · exact read?_plain r ‹_› ‹_› (by omega)
  all_goals rfl

/-- Reading undoes writing, whatever follows. -/
theorem read?_write (s r : Text) : read? (s.flatMap escape ++ '"' :: r) = some (s,r) := by
  induction s with
  | nil => rw [List.flatMap_nil,List.nil_append,read?]
  | cons c s ih => rw [List.flatMap_cons,List.append_assoc,read?_escape,ih]; rfl

end QuotedText
end DocTags
