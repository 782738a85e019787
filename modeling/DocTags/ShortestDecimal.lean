import DocTags.Text

/-! The shortest decimal of a finite float, in exact arithmetic. A float stands for a whole number
times a power of two; a decimal reads back as the float when it lies between the midpoints to the two
neighbouring floats. -/
namespace DocTags

structure Decimal where
  coefficient : Nat
  exponent : Int
  deriving DecidableEq, Repr

namespace ShortestDecimal

structure Ratio where
  num : Nat
  den : Nat
  deriving Repr

def Ratio.scaled (m : Nat) (base : Nat) (e : Int) : Ratio :=
  if 0 ≤ e then ⟨m*base.pow e.toNat,1⟩ else ⟨m,base.pow (-e).toNat⟩

def Ratio.le (a b : Ratio) : Bool := a.num*b.den ≤ b.num*a.den

def Ratio.lt (a b : Ratio) : Bool := a.num*b.den < b.num*a.den

/-- A positive float `mantissa*2^exponent` with the midpoints to its neighbours. The lower midpoint
is nearer where the floats below lie twice as dense. Midpoints read back iff the mantissa is even. -/
structure Interval where
  value : Ratio
  low : Ratio
  high : Ratio
  closed : Bool

def Interval.ofFloat (mantissa : Nat) (exponent : Int) (denseBelow : Bool) : Interval :=
  ⟨.scaled (4*mantissa) 2 (exponent-2),
    .scaled (if denseBelow then 4*mantissa-1 else 4*mantissa-2) 2 (exponent-2),
    .scaled (4*mantissa+2) 2 (exponent-2),mantissa%2 == 0⟩

def Interval.contains (i : Interval) (x : Ratio) : Bool :=
  if i.closed then i.low.le x && x.le i.high else i.low.lt x && x.lt i.high

/-- The greatest `e`, starting from a first guess and going down, with `10^e ≤ x`. -/
def Ratio.magnitude (x : Ratio) : Nat → Int → Int
  | 0,e => e
  | fuel+1,e => if (Ratio.scaled 1 10 e).le x then e else magnitude x fuel (e-1)

def Interval.neighbours (i : Interval) (e : Int) : Nat × Nat :=
  let n := if 0 ≤ e then i.value.num/(i.value.den*Nat.pow 10 e.toNat)
    else i.value.num*Nat.pow 10 (-e).toNat/i.value.den
  (n,n+1)

/-- Whether the upper of the two multiples is nearer to the value than the lower one; of equally near
ones the even is taken. -/
def Interval.prefersUpper (i : Interval) (e : Int) (lower : Nat) : Bool :=
  let middle := Ratio.scaled (2*lower+1) 10 e
  let twice : Ratio := ⟨2*i.value.num,i.value.den⟩
  if middle.lt twice then true
  else if twice.lt middle then false
  else lower%2 == 1

def Interval.nearestMultiple? (i : Interval) (e : Int) : Option Nat :=
  let (lower,upper) := i.neighbours e
  match i.contains (.scaled lower 10 e),i.contains (.scaled upper 10 e) with
  | true,true => some (if i.prefersUpper e lower then upper else lower)
  | true,false => some lower
  | false,true => some upper
  | false,false => none

def Interval.search (i : Interval) : Nat → Int → Decimal
  | 0,e => ⟨(i.neighbours e).1,e⟩
  | fuel+1,e =>
    match i.nearestMultiple? e with
    | some n => ⟨n,e⟩
    | none => i.search fuel (e-1)

def dropZeros : Nat → Decimal → Decimal
  | 0,d => d
  | fuel+1,d =>
    if d.coefficient ≠ 0 ∧ d.coefficient%10 = 0 then
      dropZeros fuel ⟨d.coefficient/10,d.exponent+1⟩
    else d

def greatestMagnitude : Int := 308

def leastMagnitude : Int := -324

def enoughDigits : Nat := 17

def ofInterval (i : Interval) : Decimal :=
  let e := i.value.magnitude (greatestMagnitude-leastMagnitude).toNat greatestMagnitude
  dropZeros (enoughDigits+1) (i.search enoughDigits e)

def unpack (bits : Nat) : Nat × Int × Bool :=
  let field : Nat := bits/Nat.pow 2 52%Nat.pow 2 11
  let fraction : Nat := bits%Nat.pow 2 52
  if field = 0 then (fraction,-1074,false)
  else (Nat.pow 2 52+fraction,(field : Int)-1075,fraction == 0 && 1 < field)

/-- The shortest decimal that reads back as the float without its sign, and among those the nearest;
zero for zero. -/
def ofFloat (x : Float) : Decimal :=
  match unpack (x.toBits.toNat%Nat.pow 2 63) with
  | (0,_,_) => ⟨0,0⟩
  | (m,e,dense) => ofInterval (.ofFloat m e dense)

end ShortestDecimal
end DocTags
