/-!
# Scalars

Drawings are computed over a type of scalars. The operations carry no laws: a program runs them on
doubles, while a statement about exact arithmetic reads the same definitions over an ordered field.
-/
namespace GraphScribe

class Scalar (α : Type) extends Add α, Sub α, Mul α, Div α, Neg α where
  ofInt : Int → α
  /-- The decimal `digits / 10 ^ places`. -/
  decimal : (digits places : Nat) → α
  pi : α
  sqrt : α → α
  sin : α → α
  cos : α → α
  hypot : α → α → α
  /-- The nearest integer, a half rounded away from zero. -/
  round : α → Int
  isFinite : α → Bool
  lt : α → α → Bool
  le : α → α → Bool
  eq : α → α → Bool
  order : α → α → Ordering

namespace Scalar

variable {α : Type} [Scalar α]

def ofNat (n : Nat) : α := ofInt n

/-- The smaller of the two; a scalar that differs from itself gives way to the other. -/
def min (a b : α) : α := if lt b a || !eq a a then b else a

def max (a b : α) : α := if lt a b || !eq a a then b else a

def abs (a : α) : α := if lt a (ofNat 0) then -a else a

def half (a : α) : α := a / ofNat 2

def sum (xs : List α) : α := xs.foldl (· + ·) (ofNat 0)

def largest (xs : List α) : α := xs.foldl max (ofNat 0)

end Scalar

end GraphScribe
