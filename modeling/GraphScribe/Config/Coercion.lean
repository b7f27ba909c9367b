import GraphScribe.Config.Layers
import GraphScribe.Json.Decode
import GraphScribe.Number.Numeral

/-!
# What a setting is taken for

Settings from files have types, those from a command line are texts, so each kind of field also
accepts what can be read as a value of that kind. Numbers and truth values stand for each other,
with one for true, and a text may name either.
-/
namespace GraphScribe.Config

def word? (s : String) : Option Bool :=
  let w := foldCase s
  if w = "true" ∨ w = "on" ∨ w = "yes" then some true
  else if w = "false" ∨ w = "off" ∨ w = "no" then some false
  else none

def record? (names : List String) : Json → Option (List (Option Json))
  | .obj members => some (names.map fun n => members.lookup n)
  | .arr values => some (names.zipIdx.map fun (_, i) => values[i]?)
  | _ => none

def bool? : Json → Option Bool
  | .bool b => some b
  | .int n => some (n != 0)
  | .float x => some (x != 0)
  | .str s => if s = "1" then some true else if s = "0" then some false else word? s
  | _ => none

def real? : Json → Option Float
  | .bool b => some (if b then 1 else 0)
  | .int n => some (Float.ofInt n)
  | .float x => some x
  | .str s =>
    match word? s with
    | some b => some (if b then 1 else 0)
    | none => Number.real? s.toList
  | _ => none

/-- A fraction is rounded, a half away from zero; what lies beyond the range of counts becomes the
nearest count. -/
def count? : Json → Option Nat
  | .bool b => some b.toNat
  | .int n => if 0 ≤ n then some n.toNat else none
  | .float x => some x.round.toUInt64.toNat
  | .str s =>
    match word? s with
    | some b => some b.toNat
    | none => (Number.natural? s.toList).filter fun n => decide (n < Nat.pow 2 64)
  | _ => none

/-- Names are kept in small letters. A table with a single key names that key. -/
def name? : Json → Option String
  | .str s => some (foldCase s)
  | .obj [(k, _)] => some k
  | _ => none

/-- Only a text can be the text of a field that wants one; a number or a truth value never reads as
what such a field holds. -/
def decoder : Json.Decoder := ⟨record?, bool?, Json.text?, real?, count?, name?⟩

end GraphScribe.Config
