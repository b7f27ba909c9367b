import GraphScribe.Scalar.Basic

/-!
# Doubles as scalars
-/
namespace GraphScribe.Double

/-- The value `√(x² + y²)` for `x ≥ y ≥ 0` of moderate size: the root of the rounded sum of squares,
corrected by one step in which the error of that sum is computed without cancellation. -/
def hypotCore (x y : Float) : Float :=
  let h := Float.sqrt (x * x + y * y)
  let error :=
    if h ≤ 2 * y then
      let d := h - y
      x * (2 * d - x) + (d - 2 * (x - y)) * d
    else
      let d := h - x
      2 * d * (x - 2 * y) + ((4 * d - y) * y + d * d)
  h - error / (2 * h)

def twoPow (n : Nat) : Float := Float.ofNat (Nat.pow 2 n)

/-- The length of the vector `(x, y)`. Components that are large or small are scaled first, so that
no square overflows or vanishes; a component too small to show in the sum is added as it is. -/
def hypot (x y : Float) : Float :=
  if !(x.isFinite && y.isFinite) then
    if x.isInf || y.isInf then 1 / 0 else x + y
  else
    let x := x.abs
    let y := y.abs
    let large := if x < y then y else x
    let small := if x < y then x else y
    let scale := twoPow 600
    let negligible := twoPow 54
    if large > twoPow 511 then
      if small * negligible ≤ large then large + small
      else hypotCore (large / scale) (small / scale) * scale
    else if small * twoPow 459 < 1 then
      if large ≥ small * negligible then large + small
      else hypotCore (large * scale) (small * scale) / scale
    else if small * negligible ≤ large then large + small
    else hypotCore large small

/-- The bits read as a signed integer whose order is the order of the doubles. What is not a number
comes first. -/
def orderKey (x : Float) : Int :=
  let bits := x.toBits.toNat
  let signBit := Nat.pow 2 63
  if x.isNaN then -signBit else if bits < signBit then bits else -(bits - signBit : Int) - 1

instance : Scalar Float where
  ofInt := Float.ofInt
  decimal digits places := Float.ofScientific digits true places
  pi := Float.ofBits 0x400921FB54442D18
  sqrt := Float.sqrt
  sin := Float.sin
  cos := Float.cos
  hypot := hypot
  round x := x.round.toInt64.toInt
  isFinite := Float.isFinite
  lt a b := a < b
  le a b := a ≤ b
  eq a b := a == b
  order a b := compare (orderKey a) (orderKey b)

end GraphScribe.Double
