import GraphScribe.Json.Decode
import GraphScribe.Number.Numeral
import GraphScribe.Text.Lines

/-!
# Reading YAML

The part of YAML in which small graphs are written: mappings and sequences in block style with
scalars on one line, and empty collections in brackets. Scalars are all kept as texts, since the
field that a scalar is for decides what it is read as.
-/
namespace GraphScribe.Yaml

structure Line where
  indent : Nat
  text : List Char
  deriving DecidableEq, Repr

def isSpace (c : Char) : Bool := c == ' ' || c == '\t'

def dropEndSpace (s : List Char) : List Char := (s.reverse.dropWhile isSpace).reverse

/-- The text up to a comment, which begins after a space or at the front and outside of quotes.
`quote` is the quote that is open. -/
def dropComment (quote : Option Char) (afterSpace : Bool) : List Char → List Char
  | [] => []
  | c :: s =>
    if c = '#' ∧ afterSpace ∧ quote.isNone then []
    else
      let next :=
        if quote = some c then none
        else if quote.isNone ∧ (c = '"' ∨ c = '\'') then some c
        else quote
      c :: dropComment next (isSpace c) s

def contentLines (text : String) : List Line :=
  let ls : List Line := (Text.lines text.toList).filterMap fun l =>
    let l := dropEndSpace (dropComment none true (Text.dropReturn l))
    let (space, rest) := l.span (· == ' ')
    if rest.isEmpty then none else some ⟨space.length, rest⟩
  match ls with
  | ⟨0, ['-', '-', '-']⟩ :: rest => rest
  | ls => ls

/-- What follows the dash of a sequence element, and the width of what stands before it. -/
def element? : List Char → Option (Nat × List Char)
  | ['-'] => some (1, [])
  | '-' :: ' ' :: s => some (2 + (s.takeWhile isSpace).length, s.dropWhile isSpace)
  | _ => none

def member? : List Char → Option (List Char × List Char)
  | [] => none
  | [':'] => some ([], [])
  | ':' :: ' ' :: s => some ([], s.dropWhile isSpace)
  | c :: s => (member? s).map fun r => (c :: r.1, r.2)

def unescape : List Char → List Char
  | '\\' :: 'n' :: s => '\n' :: unescape s
  | '\\' :: 't' :: s => '\t' :: unescape s
  | '\\' :: c :: s => c :: unescape s
  | c :: s => c :: unescape s
  | [] => []

def unpair : List Char → List Char
  | '\'' :: '\'' :: s => '\'' :: unpair s
  | c :: s => c :: unpair s
  | [] => []

def scalarText (s : List Char) : String :=
  let inner := s.tail.dropLast
  String.ofList <|
    if 2 ≤ s.length ∧ s.head? = some '"' ∧ s.getLast? = some '"' then unescape inner
    else if 2 ≤ s.length ∧ s.head? = some '\'' ∧ s.getLast? = some '\'' then unpair inner
    else s

def scalar (s : List Char) : Json :=
  if s = ['[', ']'] then .arr []
  else if s = ['\x7b', '\x7d'] then .obj []
  else .str (scalarText s)

mutual
def block? : Nat → List Line → Option (Json × List Line)
  | 0, _ => none
  | _, [] => none
  | fuel + 1, l :: ls =>
    if (element? l.text).isSome then
      (elements? fuel l.indent (l :: ls)).map fun r => (.arr r.1, r.2)
    else if (member? l.text).isSome then
      (members? fuel l.indent (l :: ls)).map fun r => (.obj r.1, r.2)
    else some (scalar l.text, ls)

def elements? : Nat → Nat → List Line → Option (List Json × List Line)
  | 0, _, _ => none
  | _, _, [] => some ([], [])
  | fuel + 1, indent, l :: ls =>
    match if l.indent = indent then element? l.text else none with
    | none => some ([], l :: ls)
    | some (width, text) => do
      let (v, rest) ←
        if text.isEmpty then nested? fuel (indent + 1) ls
        else block? fuel (⟨indent + width, text⟩ :: ls)
      let (vs, rest) ← elements? fuel indent rest
      return (v :: vs, rest)

/-- The members of a mapping, the keys of which stand at `indent`. A sequence that is the value of
a key may have its dashes below the key. -/
def members? : Nat → Nat → List Line → Option (List (String × Json) × List Line)
  | 0, _, _ => none
  | _, _, [] => some ([], [])
  | fuel + 1, indent, l :: ls =>
    match if l.indent = indent ∧ (element? l.text).isNone then member? l.text else none with
    | none => some ([], l :: ls)
    | some (key, text) => do
      let least := match ls with
        | next :: _ => if (element? next.text).isSome then indent else indent + 1
        | [] => indent
      let (v, rest) ← if text.isEmpty then nested? fuel least ls else some (scalar text, ls)
      let (ms, rest) ← members? fuel indent rest
      return ((scalarText key, v) :: ms, rest)

def nested? : Nat → Nat → List Line → Option (Json × List Line)
  | 0, _, _ => none
  | _, _, [] => some (.str "", [])
  | fuel + 1, least, l :: ls =>
    if least ≤ l.indent then block? fuel (l :: ls) else some (.str "", l :: ls)
end

def parse? (text : String) : Option Json :=
  match block? (4 * (text.length + 1)) (contentLines text) with
  | some (v, []) => some v
  | _ => none

def bool? : Json → Option Bool
  | .str s =>
    if s = "true" ∨ s = "True" ∨ s = "TRUE" then some true
    else if s = "false" ∨ s = "False" ∨ s = "FALSE" then some false
    else none
  | _ => none

def real? : Json → Option Float
  | .str s => (Number.real? s.toList).filter Float.isFinite
  | _ => none

def count? : Json → Option Nat
  | .str s => Number.natural? s.toList
  | _ => none

def decoder : Json.Decoder := ⟨Json.record?, bool?, Json.text?, real?, count?, Json.text?⟩

end GraphScribe.Yaml
