import GraphScribe.Json.Basic
import GraphScribe.Number.Numeral

/-!
# Numbers in JSON text

An integer that a 64-bit integer holds is kept as it is. Any other number is a double, computed from
the leading digits that 64 bits hold and a power of ten in double arithmetic. That is quick, and
near to the number that is written, but not always the double nearest to it.
-/
namespace GraphScribe.Json

structure Scaled where
  significand : Nat
  power : Int
  deriving DecidableEq, Repr

/-- Digits appended to a number for as long as 64 bits hold it, and the digits that are left. -/
def appendDigits (n : Nat) : List Char → Nat × List Char
  | [] => (n, [])
  | c :: cs =>
    let m := 10 * n + (Number.hexValue? c).getD 0
    if m < Nat.pow 2 64 then appendDigits m cs else (n, c :: cs)

/-- The digits before and after a point, times a power of ten. Whole digits that do not fit count
by their number, digits after the point not at all. -/
def Scaled.ofDigits (whole places : List Char) (exponent : Int) : Scaled :=
  let (n, left) := appendDigits 0 whole
  let (n, dropped) := appendDigits n places
  ⟨n, exponent + left.length - (places.length - dropped.length : Nat)⟩

def powerOfTen (n : Nat) : Float := Number.ofDecimal 1 n

def shrink (x : Float) (n : Nat) : Float :=
  if n ≤ 308 then x / powerOfTen n
  else if x == 0 then x
  else shrink (x / powerOfTen 308) (n - 308)
termination_by n

def Scaled.toFloat (s : Scaled) : Float :=
  let x := Number.ofDecimal s.significand 0
  if s.power < 0 then shrink x s.power.natAbs
  else if s.power ≤ 308 then x * powerOfTen s.power.natAbs
  else if s.significand = 0 then 0
  else (1 : Float) / 0

def fraction? : List Char → Option (Option (List Char) × List Char)
  | '.' :: s =>
    match s.takeWhile Char.isDigit with
    | [] => none
    | ds => some (some ds, s.dropWhile Char.isDigit)
  | s => some (none, s)

def exponent? : List Char → Option (Option Int × List Char)
  | c :: s =>
    if c = 'e' ∨ c = 'E' then (Number.exponent? s).map fun r => (some r.1, r.2)
    else some (none, c :: s)
  | [] => some (none, [])

def integer? (negative : Bool) (n : Nat) : Option Int :=
  if negative then if n = 0 ∨ Nat.pow 2 63 < n then none else some (-n)
  else if n < Nat.pow 2 64 then some n
  else none

/-- A number without its sign. Minus zero is a double. -/
def number? (negative : Bool) (s : List Char) : Option (Json × List Char) := do
  let whole := s.takeWhile Char.isDigit
  let s := s.dropWhile Char.isDigit
  if whole.isEmpty ∨ (whole.head? = some '0' ∧ whole.length > 1) then none
  else
    let (fraction, s) ← fraction? s
    let (exponent, s) ← exponent? s
    let real := (Scaled.ofDigits whole (fraction.getD []) (exponent.getD 0)).toFloat
    let value := float (Number.negateIf negative real)
    match fraction, exponent with
    | none, none => return ((integer? negative (Number.ofDigits 10 whole)).elim value int, s)
    | _, _ => return (value, s)

end GraphScribe.Json
