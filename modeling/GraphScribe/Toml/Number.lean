import GraphScribe.Json.Basic
import GraphScribe.Toml.Words

/-!
# Numbers and dates in TOML

Single underscores may stand between digits. Integers have 64 bits. A date or a time is checked
against the calendar and kept as it is written.
-/
namespace GraphScribe.Toml

/-- Digits and single underscores between them: the digits, and the text after them. -/
def spanGrouped (isDigit : Char → Bool) : List Char → List Char × List Char
  | '_' :: c :: s =>
    if isDigit c then
      let r := spanGrouped isDigit s
      (c :: r.1, r.2)
    else ([], '_' :: c :: s)
  | c :: s =>
    if isDigit c then
      let r := spanGrouped isDigit s
      (c :: r.1, r.2)
    else ([], c :: s)
  | [] => ([], [])

def digits? (isDigit : Char → Bool) : List Char → Option (List Char × List Char)
  | c :: s => if isDigit c then some (spanGrouped isDigit (c :: s)) else none
  | [] => none

/-- The whole part of a decimal number: a zero at the front stands alone. -/
def whole? : List Char → Option (List Char × List Char)
  | '0' :: s => some (['0'], s)
  | s => digits? Char.isDigit s

def integer? (negative : Bool) (n : Nat) : Option Json :=
  if negative then (if n ≤ Nat.pow 2 63 then some (.int (-n)) else none)
  else if n < Nat.pow 2 63 then some (.int n) else none

def based? : List Char → Option (Json × List Char)
  | '0' :: b :: s =>
    let base? : Option Nat :=
      if b = 'x' then some 16 else if b = 'o' then some 8 else if b = 'b' then some 2 else none
    base?.bind fun base => do
      let isDigit (c : Char) : Bool := (Number.hexValue? c).any fun d => decide (d < base)
      let (ds, s) ← digits? isDigit s
      return (← integer? false (Number.ofDigits base ds), s)
  | _ => none

def places? : List Char → Option (List Char × List Char)
  | '.' :: s => digits? Char.isDigit s
  | s => some ([], s)

def exponent? : List Char → Option (Option Int × List Char)
  | c :: s =>
    if c = 'e' ∨ c = 'E' then do
      let (negative, s) := Number.sign s
      let (ds, s) ← digits? Char.isDigit s
      let n : Int := Number.ofDigits 10 ds
      return (some (if negative then -n else n), s)
    else some (none, c :: s)
  | [] => some (none, [])

/-- A decimal number with its sign already read; only below zero may it exceed the range of
doubles. -/
def decimal? (negative : Bool) (s : List Char) : Option (Json × List Char) := do
  let (whole, s) ← whole? s
  let (places, s) ← places? s
  let (power, s) ← exponent? s
  if places.isEmpty ∧ power.isNone then
    return (← integer? negative (Number.ofDigits 10 whole), s)
  else
    let x := Number.ofDecimal (Number.ofDigits 10 (whole ++ places))
      (power.getD 0 - places.length)
    if x.isFinite || negative then return (.float (Number.negateIf negative x), s) else none

def number? (s : List Char) : Option (Json × List Char) :=
  let (negative, t) := Number.sign s
  match t with
  | 'i' :: 'n' :: 'f' :: t => some (.float (Number.negateIf negative ((1 : Float) / 0)), t)
  | 'n' :: 'a' :: 'n' :: t => some (.float ((0 : Float) / 0), t)
  | _ => (based? s).orElse fun _ => decimal? negative t

def fixed? (width : Nat) (s : List Char) : Option (Nat × List Char) :=
  let ds := s.take width
  if ds.length = width ∧ ds.all Char.isDigit then some (Number.ofDigits 10 ds, s.drop width)
  else none

def pair? (low high : Nat) (s : List Char) : Option (Nat × List Char) :=
  (fixed? 2 s).filter fun r => decide (low ≤ r.1 ∧ r.1 ≤ high)

def char? (c : Char) : List Char → Option (List Char)
  | d :: s => if d = c then some s else none
  | [] => none

def daysInMonth (year month : Nat) : Nat :=
  if month = 2 then
    if year % 4 = 0 ∧ (year % 100 ≠ 0 ∨ year % 400 = 0) then 29 else 28
  else if month = 4 ∨ month = 6 ∨ month = 9 ∨ month = 11 then 30
  else 31

def date? (s : List Char) : Option (List Char) := do
  let (year, s) ← fixed? 4 s
  let (month, s) ← pair? 1 12 (← char? '-' s)
  let (_, s) ← pair? 1 (daysInMonth year month) (← char? '-' s)
  return s

/-- The text after a time of day, which may fall on a leap second. -/
def time? (s : List Char) : Option (List Char) := do
  let (_, s) ← pair? 0 23 s
  let (_, s) ← pair? 0 59 (← char? ':' s)
  let (_, s) ← pair? 0 60 (← char? ':' s)
  match s with
  | '.' :: c :: t => if c.isDigit then return t.dropWhile Char.isDigit else return s
  | _ => return s

def offset? : List Char → Option (List Char)
  | c :: s =>
    if c = 'Z' ∨ c = 'z' then some s
    else if c = '+' ∨ c = '-' then do
      let (_, s) ← pair? 0 23 s
      let (_, s) ← pair? 0 59 (← char? ':' s)
      return s
    else none
  | [] => none

def timeAfterDate? : List Char → Option (List Char)
  | c :: s =>
    if c = 'T' ∨ c = 't' ∨ c = ' ' then do
      let s ← time? s
      return (offset? s).getD s
    else none
  | [] => none

def moment? (s : List Char) : Option (Json × List Char) := do
  let rest ← match date? s with
    | some rest => some ((timeAfterDate? rest).getD rest)
    | none => time? s
  return (.str (String.ofList (s.take (s.length - rest.length))), rest)

end GraphScribe.Toml
