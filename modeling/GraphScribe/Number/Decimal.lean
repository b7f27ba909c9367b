import GraphScribe.Number.Binary

/-!
# Decimal forms of doubles

Three forms: with a fixed number of places, with a fixed number of significant digits and an
exponent, and the shortest one that reads back as the same double.
-/
namespace GraphScribe.Number

def padded (n width : Nat) : List Char :=
  let ds := Nat.toDigits 10 n
  List.replicate (width - ds.length) '0' ++ ds

def pointed (n places : Nat) : List Char :=
  let whole := Nat.toDigits 10 (n / Nat.pow 10 places)
  if places = 0 then whole else whole ++ '.' :: padded (n % Nat.pow 10 places) places

def signed (negative : Bool) (digits : List Char) : String :=
  String.ofList (if negative then '-' :: digits else digits)

/-- Writes `x` to `places` places after the point; a value that rounds to zero has no sign. -/
def fixed (places : Nat) (x : Float) : String :=
  let b := Binary.ofFloat x
  let (num, den) := b.scaled places
  let n := roundQuotient num den
  signed (b.negative && n != 0) (pointed n places)

def leadingPower (b : Binary) : Int :=
  let guess : Int := ((Nat.log2 b.mantissa : Int) + b.exponent) * 30103 / 100000
  let atLeast (k : Int) : Bool :=
    let (num, den) := b.scaled (-k)
    den ≤ num
  if b.mantissa = 0 then 0
  else if atLeast (guess + 1) then guess + 1
  else if atLeast guess then guess
  else guess - 1

def scientific (places : Nat) (x : Float) : String :=
  let b := Binary.ofFloat x
  let k := leadingPower b
  let (num, den) := b.scaled (places - k)
  let n := roundQuotient num den
  let (n, k) := if Nat.pow 10 (places + 1) ≤ n then (n / 10, k + 1) else (n, k)
  signed b.negative (pointed n places) ++ "e" ++ toString k

/-- The decimal `digits · 10^power` lies where every real rounds to the double `b`. -/
def readsBack (b : Binary) (digits : Nat) (power : Int) : Bool :=
  -- twice the distance, in units of the last place of `b`, against one unit
  let num := digits * Nat.pow 10 power.toNat * Nat.pow 2 (-b.exponent).toNat
  let den := Nat.pow 10 (-power).toNat * Nat.pow 2 b.exponent.toNat
  let value := b.mantissa * den
  let low := if b.mantissa = Nat.pow 2 52 && b.exponent > -1074 then 4 else 2
  let even := b.mantissa % 2 = 0
  if num ≤ value then
    let d := low * (value - num)
    d < den || (even && d = den)
  else
    let d := 2 * (num - value)
    d < den || (even && d = den)

/-- Significant digits and power of ten of the shortest decimal that reads back as `b`; of several
the nearest one. -/
def shortestDigits (b : Binary) : Nat × Int :=
  let k := leadingPower b
  let candidate (count : Nat) : Option (Nat × Int) :=
    let power := k + 1 - count
    let (num, den) := b.scaled (-power)
    let floor := num / den
    let near := roundQuotient num den
    let far := if near = floor then floor + 1 else floor
    if readsBack b near power then some (near, power)
    else if readsBack b far power then some (far, power)
    else none
  ((List.range 17).findSome? fun i => candidate (i + 1)).getD (0, 0)

def stripZeros : Nat → Nat × Int → Nat × Int
  | 0, d => d
  | n + 1, (digits, power) =>
    if digits ≠ 0 ∧ digits % 10 = 0 then stripZeros n (digits / 10, power + 1)
    else (digits, power)

/-- The shortest decimal form of a finite double, always with a point or an exponent: positional
from `10^-5` up to `10^16`, otherwise with an exponent. -/
def shortest (x : Float) : String :=
  let b := Binary.ofFloat x
  if b.mantissa = 0 then signed b.negative ['0', '.', '0']
  else
    let (digits, power) := stripZeros 20 (shortestDigits b)
    let text := Nat.toDigits 10 digits
    let point : Int := text.length + power
    let body : List Char :=
      if 0 ≤ power ∧ point ≤ 16 then text ++ List.replicate power.toNat '0' ++ ['.', '0']
      else if 0 < point ∧ point ≤ 16 then
        text.take point.toNat ++ '.' :: text.drop point.toNat
      else if -5 < point ∧ point ≤ 0 then
        ['0', '.'] ++ List.replicate (-point).toNat '0' ++ text
      else
        let tail := text.drop 1
        text.take 1 ++ (if tail.isEmpty then [] else '.' :: tail) ++
          'e' :: (toString (point - 1)).toList
    signed b.negative body

end GraphScribe.Number
