import DocTags.Value

/-! The number notation of values. A whole number that fits 64 bits stays exact. Any other number
becomes a float through a significand of at most 64 bits that one multiplication or division by a
power of ten scales, so its last bits may differ from the nearest float. -/
namespace DocTags
namespace NumberText

def digitValue (c : Char) : Nat := c.toNat - '0'.toNat

/-- Whole numbers from zero are below this bound; significands too. -/
def wordLimit : Nat := Nat.pow 2 64

/-- Appends digits to the significand while it stays below the limit; the first digit that does not
fit remains with all that follow it. -/
def append : Nat → Text → Nat × Text
  | n,[] => (n,[])
  | n,d :: ds =>
    if n*10+digitValue d < wordLimit then append (n*10+digitValue d) ds else (n,d :: ds)

def powerOfTen (k : Nat) : Float := Float.ofScientific 1 false k

def maxPower : Nat := 308

/-- The significand times a power of ten. Exponents below the least power are reached in several
divisions; a product that is infinite is refused. -/
def scale? (x : Float) (e : Int) : Option Float :=
  if e.natAbs ≤ maxPower then
    if 0 ≤ e then
      let y := x*powerOfTen e.natAbs
      if y.isInf then none else some y
    else some (x/powerOfTen e.natAbs)
  else if x == 0 then some x
  else if 0 ≤ e then none
  else scale? (x/powerOfTen maxPower) (e+maxPower)
termination_by e.natAbs
decreasing_by simp only [maxPower] at *; omega

def signed (negative : Bool) (x : Float) : Value := .float (if negative then -x else x)

def ofScientific? (negative : Bool) (significand : Nat) (e : Int) : Option Value :=
  (scale? significand.toUInt64.toFloat e).map (signed negative)

/-- A number without fraction and exponent. Minus zero is a float, and so is what exceeds the signed
and unsigned words. -/
def ofWhole (negative : Bool) (n : Nat) : Value :=
  if negative then
    if 0 < n ∧ n ≤ Nat.pow 2 63 then .int (-n) else signed true n.toUInt64.toFloat
  else .int n

def exponentLimit : Nat := Nat.pow 2 31-1

def writtenExponent (digits : Text) : Nat := digits.foldl (fun n d => n*10+digitValue d) 0

/-- An exponent beyond the limit makes zero, except that a positive one of a significand other than
zero is refused. -/
def withExponent? (negative : Bool) (significand : Nat) (e : Int) (minus : Bool) (digits : Text) :
    Option Value :=
  let w := writtenExponent digits
  if digits.isEmpty then none
  else if w ≤ exponentLimit then
    ofScientific? negative significand (if minus then e-w else e+w)
  else if significand ≠ 0 ∧ ¬ minus then none
  else some (signed negative 0)

def digitsOf (s : Text) : Text := s.takeWhile Char.isDigit

def afterDigits (s : Text) : Text := s.dropWhile Char.isDigit

def readExponent? (negative : Bool) (significand : Nat) (e : Int) (whole : Option Value) (s : Text) :
    Option (Value × Text) :=
  match s with
  | c :: r =>
    if c = 'e' ∨ c = 'E' then
      let (minus,r) := match r with
        | '-' :: r => (true,r)
        | '+' :: r => (false,r)
        | r => (false,r)
      (withExponent? negative significand e minus (digitsOf r)).map (·,afterDigits r)
    else whole.map (·,s)
  | [] => whole.map (·,s)

def readUnsigned? (negative : Bool) (s : Text) : Option (Value × Text) :=
  let digits := digitsOf s
  if digits.isEmpty || (digits.head? == some '0' && 1 < digits.length) then none
  else
    let (n,left) := append 0 digits
    match afterDigits s with
    | '.' :: r =>
      let fraction := digitsOf r
      if fraction.isEmpty then none
      else
        let (m,unread) := append n fraction
        let e : Int := left.length-(fraction.length-unread.length : Nat)
        readExponent? negative m e (ofScientific? negative m e) (afterDigits r)
    | r =>
      readExponent? negative n left.length
        (if left.isEmpty then some (ofWhole negative n) else ofScientific? negative n left.length) r

def read? : Text → Option (Value × Text)
  | '-' :: s => readUnsigned? true s
  | s => readUnsigned? false s

def write (n : Int) : Text :=
  match n with
  | .ofNat n => Nat.toDigits 10 n
  | .negSucc n => '-' :: Nat.toDigits 10 (n+1)

end NumberText
end DocTags
