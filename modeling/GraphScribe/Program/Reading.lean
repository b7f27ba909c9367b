import GraphScribe.Lexis.Gap
import GraphScribe.Program.Category
import GraphScribe.Program.Fault

/-!
# Readings of a program text

A reading is what one production made of the front of a text: the pieces it read, the text that
follows them and how many commands it read at its own level. Productions that repeat do so through
`Reading.many`, which stops where a further step declines or reads nothing.
-/
namespace GraphScribe.Program

abbrev Piece := Lexis.Piece Category Fault

structure Reading where
  pieces : List Piece
  rest : List Char
  commands : Nat := 0
  deriving Repr

namespace Reading

def after (r : Reading) (ps : List Piece) : Reading := { r with pieces := ps ++ r.pieces }

def andThen (r : Reading) (next : List Char → Reading) : Reading :=
  let r' := next r.rest
  ⟨r.pieces ++ r'.pieces, r'.rest, r.commands + r'.commands⟩

/-- Repeats `step` as long as it succeeds and shortens the text. -/
def many (step : List Char → Option Reading) (s : List Char) : Reading :=
  match step s with
  | none => ⟨[], s, 0⟩
  | some r =>
    if _h : r.rest.length < s.length then
      let more := many step r.rest
      ⟨r.pieces ++ more.pieces, more.rest, r.commands + more.commands⟩
    else r
termination_by s.length

end Reading

def gaps (s : List Char) : Reading :=
  let g := Lexis.gaps s
  ⟨g.1, g.2, 0⟩

def read? (c : Category) (s : List Char) : Option Lexis.Cut := Lexicon.read? c s

def starts (c : Category) (s : List Char) : Bool := (read? c s).isSome

def keyword? (word : String) (s : List Char) : Option Lexis.Cut :=
  (read? .keyword s).filter fun c => String.ofList c.1 = word

def recover (expected : Expectation) (s : List Char) : Reading :=
  match Lexis.readStray s with
  | some (run, rest) => ⟨[.fault (.unexpected expected) run], rest, 0⟩
  | none => ⟨[], s, 0⟩

/-- A name that is not reserved begins the text, and an equals sign follows it directly or after
blanks. -/
def startsDeclaration (s : List Char) : Bool :=
  match Lexis.readName s with
  | some (name, rest) =>
    !isReserved (String.ofList name) && (Text.dropBlank rest).head? == some '='
  | none => false

end GraphScribe.Program
