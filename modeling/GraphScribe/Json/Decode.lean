import GraphScribe.Json.Basic

/-!
# Decoding JSON values

A record is written as an object, whose unknown members are ignored, or as an array of its fields
in order. A field that is left out has its default, if it has one; null is a value like any other
and stands for a missing field only where a field says so.

What a field of each kind accepts is a `Decoder`. The one for JSON texts is strict; other formats
forgive more.
-/
namespace GraphScribe.Json

structure Decoder where
  record? : List String → Json → Option (List (Option Json))
  bool? : Json → Option Bool
  text? : Json → Option String
  real? : Json → Option Float
  count? : Json → Option Nat
  name? : Json → Option String

def required {α : Type} (decode : Json → Option α) (v : Option Json) : Option α := v.bind decode

def optional {α : Type} (default : α) (decode : Json → Option α) : Option Json → Option α
  | none => some default
  | some v => decode v

def list? {α : Type} (decode : Json → Option α) : Json → Option (List α)
  | arr vs => vs.mapM decode
  | _ => none

def nullable {α : Type} (decode : Json → Option α) : Json → Option (Option α)
  | null => some none
  | v => (decode v).map some

def Decoder.choice? {α : Type} (d : Decoder) (ofName? : String → Option α) (v : Json) : Option α :=
  (d.name? v).bind ofName?

def valuesOf (members : List (String × Json)) (name : String) : List Json :=
  members.filterMap fun m => if m.1 = name then some m.2 else none

/-- A field may not be given twice, nor may there be more values than fields. -/
def record? (names : List String) : Json → Option (List (Option Json))
  | obj members =>
    names.mapM fun name =>
      match valuesOf members name with
      | [] => some none
      | [v] => some (some v)
      | _ => none
  | arr values =>
    if values.length ≤ names.length then
      some (values.map some ++ List.replicate (names.length - values.length) none)
    else none
  | _ => none

def bool? : Json → Option Bool
  | bool b => some b
  | _ => none

def text? : Json → Option String
  | str s => some s
  | _ => none

/-- Any number as a double; one beyond their range is refused. -/
def real? : Json → Option Float
  | int n => some (Float.ofInt n)
  | float x => if x.isFinite then some x else none
  | _ => none

def count? : Json → Option Nat
  | int n => if 0 ≤ n then some n.toNat else none
  | _ => none

/-- An alternative is given by its name, or as an object with that single name and null. -/
def name? : Json → Option String
  | str s => some s
  | obj [(s, null)] => some s
  | _ => none

def Decoder.strict : Decoder :=
  ⟨Json.record?, Json.bool?, Json.text?, Json.real?, Json.count?, Json.name?⟩

end GraphScribe.Json
