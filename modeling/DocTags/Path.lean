import DocTags.Bytes

/-! Paths and their order. Paths are compared by components: doubled slashes and dots between slashes
make no difference, but a dot in front does. -/
namespace DocTags
namespace Path

def slash : UInt8 := 0x2F

def dot : UInt8 := 0x2E

def here : Bytes := [dot]

def parent : Bytes := [dot,dot]

structure IsFileName (n : Bytes) : Prop where
  ne_nil : n ≠ []
  notMem : slash ∉ n
  ne_here : n ≠ here
  ne_parent : n ≠ parent

instance (n : Bytes) : Decidable (IsFileName n) :=
  decidable_of_iff (n ≠ [] ∧ slash ∉ n ∧ n ≠ here ∧ n ≠ parent)
    ⟨fun ⟨h₁,h₂,h₃,h₄⟩ => ⟨h₁,h₂,h₃,h₄⟩,fun ⟨h₁,h₂,h₃,h₄⟩ => ⟨h₁,h₂,h₃,h₄⟩⟩

def pieces (p : Bytes) : List Bytes := p.splitOn slash

/-- A piece that a path passes a place with, or goes up with. -/
def isStep (piece : Bytes) : Bool := !piece.isEmpty && piece != here

/-- Goes on from a path with another one, which may start anew from the top. A slash comes between unless
there is one. -/
def join (p q : Bytes) : Bytes :=
  if q.head? = some slash then q
  else if p = [] ∨ p.getLast? = some slash then p ++ q
  else p ++ slash :: q

/-- What stands behind the last dot of a file name, if something stands before it. -/
def extension? (name : Bytes) : Option Bytes :=
  match name.reverse.dropWhile (· ≠ dot) with
  | _ :: _ :: _ => some (name.reverse.takeWhile (· ≠ dot)).reverse
  | _ => none

inductive Component
  | root
  | here
  | parent
  | name (n : Bytes)
  deriving DecidableEq

namespace Component

def rank : Component → Nat
  | root => 0
  | here => 1
  | parent => 2
  | name _ => 3

def le : Component → Component → Bool
  | name m,name n => decide (m ≤ n)
  | a,b => a.rank ≤ b.rank

def ofPiece? (p : Bytes) : Option Component :=
  if !isStep p then none
  else if p = Path.parent then some parent
  else some (name p)

end Component

def components (path : Bytes) : List Component :=
  let ps := pieces path
  let rest := ps.filterMap Component.ofPiece?
  if path.head? = some slash then .root :: rest
  else if ps.head? = some here then .here :: rest
  else rest

/-- Components are compared one by one; a path comes before what lies below it. -/
def componentsLe : List Component → List Component → Bool
  | [],_ => true
  | _ :: _,[] => false
  | a :: as,b :: bs => if a = b then componentsLe as bs else a.le b

def le (p q : Bytes) : Bool := componentsLe (components p) (components q)

def same (p q : Bytes) : Bool := components p = components q

def dropRepeats : List Bytes → List Bytes
  | [] => []
  | p :: ps =>
    match dropRepeats ps with
    | q :: qs => if same p q then p :: qs else p :: q :: qs
    | [] => [p]

/-- The paths in order, without repeats; of equal ones the first remains. -/
def arrange (ps : List Bytes) : List Bytes := dropRepeats (ps.mergeSort le)

end Path
end DocTags
