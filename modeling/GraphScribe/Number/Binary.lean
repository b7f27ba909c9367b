/-!
# Binary fractions

A finite double is `(-1)^s · m · 2^e` for integers. Everything said here about its decimal form is
said of `m` and `e`, in exact integer arithmetic.
-/
namespace GraphScribe.Number

/-- A finite double taken apart: the absolute value is `mantissa · 2^exponent`. -/
structure Binary where
  negative : Bool
  mantissa : Nat
  exponent : Int
  deriving DecidableEq, Repr

namespace Binary

/-- The value of a finite double; infinities and NaN come out as large numbers. -/
def ofFloat (x : Float) : Binary :=
  let bits := x.toBits.toNat
  let fraction : Nat := bits % Nat.pow 2 52
  let power : Nat := bits / Nat.pow 2 52 % 2048
  let negative := bits / Nat.pow 2 63 == 1
  if power = 0 then ⟨negative, fraction, -1074⟩
  else ⟨negative, fraction + Nat.pow 2 52, (power : Int) - 1075⟩

def scaled (x : Binary) (places : Int) : Nat × Nat :=
  (x.mantissa * Nat.pow 2 x.exponent.toNat * Nat.pow 10 places.toNat,
    Nat.pow 2 (-x.exponent).toNat * Nat.pow 10 (-places).toNat)

end Binary

def roundQuotient (num den : Nat) : Nat :=
  let q := num / den
  let r := num % den
  if 2 * r < den then q
  else if den < 2 * r then q + 1
  else if q % 2 = 0 then q
  else q + 1

end GraphScribe.Number
