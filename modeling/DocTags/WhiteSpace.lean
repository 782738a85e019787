/-! The Unicode property White_Space. -/
namespace DocTags

/-- The closed ranges of code points that have the property White_Space. -/
def whiteSpaceRanges : List (Nat × Nat) :=
  [(0x09,0x0D),(0x20,0x20),(0x85,0x85),(0xA0,0xA0),(0x1680,0x1680),(0x2000,0x200A),
    (0x2028,0x2029),(0x202F,0x202F),(0x205F,0x205F),(0x3000,0x3000)]

def isWhiteSpace (c : Char) : Bool :=
  whiteSpaceRanges.any fun r => r.1 ≤ c.toNat && c.toNat ≤ r.2

example : (whiteSpaceRanges.map fun r => r.2+1-r.1).sum = 25 := by decide

end DocTags
