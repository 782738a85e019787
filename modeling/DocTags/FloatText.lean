import DocTags.ShortestDecimal

/-! The text of a float: its shortest digits, laid out by position or in scientific notation. -/
namespace DocTags
namespace FloatText

/-- Where positional notation ends. The exponent of a number is that of its first digit. -/
structure Layout where
  leastPositional : Int
  greatestPositional : Int

/-- Numbers from a hundred-thousandth up to below ten to the sixteenth are written by position. -/
def layout : Layout := ⟨-5,15⟩

def positional (digits : Text) (e : Int) : Text :=
  if e < 0 then '0' :: '.' :: (List.replicate (-e-1).toNat '0' ++ digits)
  else
    let n := e.toNat+1
    if digits.length ≤ n then digits ++ List.replicate (n-digits.length) '0' ++ ['.','0']
    else digits.take n ++ '.' :: digits.drop n

def mantissa : Text → Text
  | [] => []
  | [d] => [d]
  | d :: ds => d :: '.' :: ds

def scientific (digits : Text) (e : Int) : Text :=
  mantissa digits ++ 'e' :: (if e < 0 then '-' else '+') :: Nat.toDigits 10 e.natAbs

def Layout.write (l : Layout) (d : Decimal) : Text :=
  let digits := Nat.toDigits 10 d.coefficient
  let e := d.exponent+digits.length-1
  if l.leastPositional ≤ e ∧ e ≤ l.greatestPositional then positional digits e
  else scientific digits e

def write (x : Float) : Text :=
  let body := layout.write (ShortestDecimal.ofFloat x)
  if x.toBits.toNat < Nat.pow 2 63 then body else '-' :: body

end FloatText
end DocTags
