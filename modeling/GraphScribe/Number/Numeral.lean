/-!
# Numerals

The values of runs of digits, and the double that a decimal numeral stands for: the nearest one, of
two equally near ones the even one.
-/
namespace GraphScribe.Number

def hexValue? (c : Char) : Option Nat :=
  if '0' ≤ c ∧ c ≤ '9' then some (c.toNat - '0'.toNat)
  else if 'a' ≤ c ∧ c ≤ 'f' then some (c.toNat - 'a'.toNat + 10)
  else if 'A' ≤ c ∧ c ≤ 'F' then some (c.toNat - 'A'.toNat + 10)
  else none

def ofDigits (base : Nat) (digits : List Char) : Nat :=
  digits.foldl (fun n c => base * n + (hexValue? c).getD 0) 0

/-- The double nearest to `digits · 10^power`. Powers far outside the range of doubles are cut
short, which changes no result. -/
def ofDecimal (digits : Nat) (power : Int) : Float :=
  if digits = 0 then 0
  else
    let size : Int := Nat.log2 digits
    if power > 400 then (1 : Float) / 0
    else if power + size < -1200 then 0
    else Float.ofScientific digits (decide (power < 0)) power.natAbs

def negateIf (negative : Bool) (x : Float) : Float := if negative then -x else x

def spanDigits (s : List Char) : List Char × List Char := s.span Char.isDigit

def sign (s : List Char) : Bool × List Char :=
  match s with
  | '-' :: s => (true, s)
  | '+' :: s => (false, s)
  | s => (false, s)

def exponent? (s : List Char) : Option (Int × List Char) :=
  let (negative, s) := sign s
  match spanDigits s with
  | ([], _) => none
  | (ds, rest) =>
    let n : Int := ofDigits 10 ds
    some (if negative then -n else n, rest)

/-- The double that a whole text names: infinity, not a number, or digits with or without a point
and an exponent, each with or without a sign. -/
def real? (s : List Char) : Option Float :=
  let (negative, s) := sign s
  let word := String.ofList (s.map Char.toLower)
  if word = "inf" ∨ word = "infinity" then some (negateIf negative ((1 : Float) / 0))
  else if word = "nan" then some ((0 : Float) / 0)
  else
    let (whole, s) := spanDigits s
    let (places, s) := match s with
      | '.' :: s => spanDigits s
      | s => ([], s)
    if whole.isEmpty ∧ places.isEmpty then none
    else
      let value (power : Int) : Option Float :=
        some (negateIf negative (ofDecimal (ofDigits 10 (whole ++ places)) (power - places.length)))
      match s with
      | [] => value 0
      | c :: s =>
        if c = 'e' ∨ c = 'E' then
          match exponent? s with
          | some (power, []) => value power
          | _ => none
        else none

def natural? (s : List Char) : Option Nat :=
  let digits := match s with
    | '+' :: s => s
    | s => s
  if digits.isEmpty ∨ !digits.all Char.isDigit then none else some (ofDigits 10 digits)

end GraphScribe.Number
