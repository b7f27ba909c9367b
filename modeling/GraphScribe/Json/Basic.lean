import GraphScribe.Number.Decimal

/-!
# JSON values

Integers and other numbers are kept apart, since a count may not be given as a fraction. Members of
an object keep their order, and one name may occur twice.
-/
namespace GraphScribe

inductive Json where
  | null
  | bool (b : Bool)
  | int (n : Int)
  | float (x : Float)
  | str (s : String)
  | arr (elements : List Json)
  | obj (members : List (String × Json))
  /-- A string with half a surrogate pair in it, or an object with such a name: it can be written,
  but it has no text. -/
  | unpaired
  deriving Repr

namespace Json

def escape (c : Char) : List Char :=
  if c = '"' then ['\\', '"']
  else if c = '\\' then ['\\', '\\']
  else if c = '\n' then ['\\', 'n']
  else if c = '\r' then ['\\', 'r']
  else if c = '\t' then ['\\', 't']
  else if c = '\x08' then ['\\', 'b']
  else if c = '\x0c' then ['\\', 'f']
  else if c.toNat < 32 then
    ['\\', 'u', '0', '0', Nat.digitChar (c.toNat / 16), Nat.digitChar (c.toNat % 16)]
  else [c]

def quote (s : String) : String := String.ofList ('"' :: s.toList.flatMap escape ++ ['"'])

/-- A double as JSON text; what is not finite has none and becomes null. -/
def floatText (x : Float) : String := if x.isFinite then Number.shortest x else "null"

mutual
def compact : Json → String
  | null => "null"
  | bool b => if b then "true" else "false"
  | int n => toString n
  | float x => floatText x
  | str s => quote s
  | arr elements => "[" ++ compactElements elements ++ "]"
  | obj members => "\x7b" ++ compactMembers members ++ "\x7d"
  | unpaired => "null"

def compactElements : List Json → String
  | [] => ""
  | [v] => compact v
  | v :: vs => compact v ++ "," ++ compactElements vs

def compactMembers : List (String × Json) → String
  | [] => ""
  | [(k, v)] => quote k ++ ":" ++ compact v
  | (k, v) :: ms => quote k ++ ":" ++ compact v ++ "," ++ compactMembers ms
end

def newline (depth : Nat) : String := String.ofList ('\n' :: List.replicate (2 * depth) ' ')

mutual
def pretty (depth : Nat) : Json → String
  | arr [] => "[]"
  | arr (v :: vs) =>
    "[" ++ newline (depth + 1) ++ pretty (depth + 1) v ++ prettyElements (depth + 1) vs ++
      newline depth ++ "]"
  | obj [] => "\x7b\x7d"
  | obj ((k, v) :: ms) =>
    "\x7b" ++ newline (depth + 1) ++ quote k ++ ": " ++ pretty (depth + 1) v ++
      prettyMembers (depth + 1) ms ++ newline depth ++ "\x7d"
  | null => "null"
  | bool b => if b then "true" else "false"
  | int n => toString n
  | float x => floatText x
  | str s => quote s
  | unpaired => "null"

def prettyElements (depth : Nat) : List Json → String
  | [] => ""
  | v :: vs => "," ++ newline depth ++ pretty depth v ++ prettyElements depth vs

def prettyMembers (depth : Nat) : List (String × Json) → String
  | [] => ""
  | (k, v) :: ms =>
    "," ++ newline depth ++ quote k ++ ": " ++ pretty depth v ++ prettyMembers depth ms
end

end Json

end GraphScribe
