import GraphScribe.Text.Bytes

/-!
# Lines

Lines end at line feeds. A line as the editor shows it has no carriage return at its end; positions
are given by line and column, both counted from one, columns in characters.
-/
namespace GraphScribe.Text

/-- The text cut at its line feeds; there is one line more than there are line feeds. -/
def lines : List Char → List (List Char)
  | [] => [[]]
  | c :: s =>
    if c = '\n' then [] :: lines s
    else
      match lines s with
      | [] => [[c]]
      | l :: ls => (c :: l) :: ls

def dropReturn (line : List Char) : List Char :=
  if line.getLast? = some '\r' then line.dropLast else line

def placeLines : Nat → List (List Char) → List (Nat × List Char)
  | _, [] => []
  | start, l :: ls => (start, dropReturn l) :: placeLines (start + byteLength l + 1) ls

def lineBlocks (s : List Char) : List (Nat × List Char) := placeLines 0 (lines s)

structure Position where
  line : Nat
  column : Nat
  deriving DecidableEq, Repr

def position (s : List Char) (offset : Nat) : Position :=
  let before := takeBytes offset s
  ⟨before.count '\n' + 1, (before.reverse.takeWhile (· != '\n')).length + 1⟩

/-- The lines of a label: a line feed at the very end begins no further line, and a carriage return
counts only where no line feed follows it. -/
def labelLines (s : List Char) : List (List Char) :=
  let ls := lines s
  let last := ls.getLast?.getD []
  ls.dropLast.map dropReturn ++ (if last.isEmpty then [] else [last])

end GraphScribe.Text
