import GraphScribe.Number.Numeral

/-!
# Colours

A colour is written `#rrggbb`. Each channel is read as a hexadecimal number of two characters, the
first of which may also be a plus sign; it is always written in lower case and without one.
-/
namespace GraphScribe

structure Color where
  red : UInt8
  green : UInt8
  blue : UInt8
  deriving DecidableEq, Repr

namespace Color

/-- The text that was to be read as a colour. -/
structure Malformed where
  text : String
  deriving DecidableEq, Repr

def Malformed.message (e : Malformed) : String :=
  "invalid colour '" ++ e.text ++ "': expected #rrggbb"

def channel? (high low : Char) : Option UInt8 :=
  if high = '+' then (Number.hexValue? low).map UInt8.ofNat
  else do
    let h ← Number.hexValue? high
    let l ← Number.hexValue? low
    return UInt8.ofNat (16 * h + l)

def ofChars? : List Char → Option Color
  | ['#', r, r', g, g', b, b'] => do
    let red ← channel? r r'
    let green ← channel? g g'
    let blue ← channel? b b'
    return ⟨red, green, blue⟩
  | _ => none

def ofString (s : String) : Except Malformed Color :=
  match ofChars? s.toList with
  | some c => .ok c
  | none => .error ⟨s⟩

def hexPair (n : UInt8) : List Char :=
  [Nat.digitChar (n.toNat / 16), Nat.digitChar (n.toNat % 16)]

def toString (c : Color) : String :=
  String.ofList ('#' :: (hexPair c.red ++ hexPair c.green ++ hexPair c.blue))

end Color

end GraphScribe
