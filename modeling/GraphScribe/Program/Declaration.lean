import GraphScribe.Program.Command

/-!
# Declarations

A declaration gives a name to a command sequence: `name = commands.`
-/
namespace GraphScribe.Program

/-- The name of a declaration and the equals sign after it; the second component tells whether
that sign is in place. -/
def declarationHead (name s : List Char) : Reading × Bool :=
  let text := String.ofList name
  let gap := gaps s
  match read? .declarationOperator gap.rest with
  | some (sign, rest) =>
    let piece : Piece :=
      if isReserved text then .fault (.reservedDeclaration text) name
      else .token .declaration name
    (⟨piece :: gap.pieces ++ [.token .declarationOperator sign], rest, 0⟩, true)
  | none => (⟨[.fault (.missingEquals text) name], s, 0⟩, false)

def declarationEnd (name : List Char) (hasSign : Bool) (commands : Nat) (s : List Char) :
    Reading :=
  let gap := gaps s
  match read? .declarationSeparator gap.rest with
  | some (period, rest) =>
    let piece : Piece :=
      if hasSign && commands == 0 then .fault (.emptyDeclaration (String.ofList name)) period
      else .token .declarationSeparator period
    ⟨gap.pieces ++ [piece], rest, 0⟩
  | none => ⟨[], s, 0⟩

def declaration (block : BlockReader) (scope : Scope) (s : List Char) : Reading :=
  match read? .identifier s with
  | none => recover .declaration s
  | some (name, rest) =>
    let head := declarationHead name rest
    let body := head.1.andThen (sequence block scope)
    body.andThen (declarationEnd name head.2 body.commands)

/-- One declaration. At the top everything up to the end is one; inside a block only a name and an
equals sign begin one. -/
def declarationStep (block : BlockReader) (scope : Scope) (s : List Char) : Option Reading :=
  let gap := gaps s
  if gap.rest.isEmpty then none
  else
    match read? .closeParen gap.rest, scope with
    | some _, .inner => none
    | some (close, rest), .top => some ⟨gap.pieces ++ [.fault .strayClose close], rest, 0⟩
    | none, .inner =>
      if startsDeclaration gap.rest then
        some ((declaration block scope gap.rest).after gap.pieces)
      else none
    | none, .top => some ((declaration block scope gap.rest).after gap.pieces)

def declarations (block : BlockReader) (scope : Scope) (s : List Char) : Reading :=
  .many (declarationStep block scope) s

end GraphScribe.Program
