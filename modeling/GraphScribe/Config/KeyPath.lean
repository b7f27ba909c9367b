import GraphScribe.Number.Numeral

/-!
# Key paths

A path leads to one setting: a key, then keys after dots and element numbers in brackets. A negative
number counts from the end.
-/
namespace GraphScribe.Config

inductive Step where
  | key (name : String)
  | element (index : Int)
  deriving DecidableEq, Repr

structure KeyPath where
  first : String
  steps : List Step
  deriving DecidableEq, Repr

namespace KeyPath

def isKeyChar (c : Char) : Bool := c.isAlphanum || c == ' ' || c == '_' || c == '-'

def key? (s : List Char) : Option (String × List Char) :=
  match s.span isKeyChar with
  | ([], _) => none
  | (cs, rest) => some (String.ofList cs, rest)

def skipSpace (s : List Char) : List Char := s.dropWhile fun c => c == ' ' || c == '\t'

/-- An element number up to its closing bracket; it has to fit in 64 bits. -/
def index? (s : List Char) : Option (Int × List Char) :=
  let (negative, s) := match skipSpace s with
    | '-' :: s => (true, s)
    | s => (false, s)
  match Number.spanDigits s with
  | ([], _) => none
  | (ds, s) =>
    let n := Number.ofDigits 10 ds
    match skipSpace s with
    | ']' :: s =>
      if negative then (if n ≤ Nat.pow 2 63 then some (-n, s) else none)
      else if n < Nat.pow 2 63 then some (n, s) else none
    | _ => none

def steps? : Nat → List Char → Option (List Step)
  | _, [] => some []
  | 0, _ => none
  | fuel + 1, c :: s =>
    if c = '.' then do
      let (k, s) ← key? s
      return .key k :: (← steps? fuel s)
    else if c = '[' then do
      let (i, s) ← index? s
      return .element i :: (← steps? fuel s)
    else none

def parse? (text : String) : Option KeyPath := do
  let (k, s) ← key? text.toList
  return ⟨k, ← steps? s.length s⟩

end KeyPath

end GraphScribe.Config
