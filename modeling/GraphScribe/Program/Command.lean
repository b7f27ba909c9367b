import GraphScribe.Program.Reading

/-!
# Commands and command sequences

A command is a block, repeated or with an alternative, or one of the `if` and `try` forms, whose
parts are blocks. The productions take the reader of blocks as a parameter, and each expects that
the gap before it has been read; `blockPast` and `keywordPast` read one first.

Nothing stops the reading: where a part is missing, the token that asked for it becomes a fault.
-/
namespace GraphScribe.Program

/-- Reads a block at the front of a text, or finds none there. -/
abbrev BlockReader := List Char → Option Reading

/-- Whether a closing parenthesis ends what is being read or matches nothing. -/
inductive Scope where
  | top
  | inner
  deriving DecidableEq, Repr

def blockPast (block : BlockReader) (s : List Char) : Option Reading :=
  let gap := gaps s
  (block gap.rest).map (·.after gap.pieces)

def keywordPast (word : String) (s : List Char) : Option (List Piece × Lexis.Cut) :=
  let gap := gaps s
  (keyword? word gap.rest).map (gap.pieces, ·)

def clause (block : BlockReader) (word : List Char) (missing : Fault) (s : List Char) : Reading :=
  match blockPast block s with
  | some body => body.after [.token .keyword word]
  | none => ⟨[.fault missing word], s, 0⟩

def elseBranch (block : BlockReader) (s : List Char) : Reading :=
  match keywordPast "else" s with
  | some (gap, word, rest) => (clause block word .missingElseCommand rest).after gap
  | none => ⟨[], s, 0⟩

def thenBranch (block : BlockReader) (word s : List Char) : Reading :=
  match blockPast block s with
  | some body => (body.andThen (elseBranch block)).after [.token .keyword word]
  | none => ⟨[.fault .missingThenCommand word], s, 0⟩

def conditional (block : BlockReader) (word s : List Char) : Reading :=
  match blockPast block s with
  | some condition =>
    match keywordPast "then" condition.rest with
    | some (gap, next, rest) =>
      (thenBranch block next rest).after (.token .keyword word :: condition.pieces ++ gap)
    | none => condition.after [.fault .missingThen word]
  | none => ⟨[.fault .missingCondition word], s, 0⟩

def attempt (block : BlockReader) (word s : List Char) : Reading :=
  match blockPast block s with
  | some body =>
    match keywordPast "then" body.rest with
    | some (gap, next, rest) =>
      (thenBranch block next rest).after (.token .keyword word :: body.pieces ++ gap)
    | none => body.after [.token .keyword word]
  | none => ⟨[.fault .missingTryCommand word], s, 0⟩

def blockTail (block : BlockReader) (s : List Char) : Reading :=
  let gap := gaps s
  match read? .repetition gap.rest with
  | some (mark, rest) => ⟨gap.pieces ++ [.token .repetition mark], rest, 0⟩
  | none =>
    match keyword? "or" gap.rest with
    | some (word, rest) => (clause block word .missingAlternative rest).after gap.pieces
    | none => ⟨[], s, 0⟩

def command (block : BlockReader) (s : List Char) : Reading :=
  match keyword? "if" s with
  | some (word, rest) => conditional block word rest
  | none =>
    match keyword? "try" s with
    | some (word, rest) => attempt block word rest
    | none =>
      match block s with
      | some first => first.andThen (blockTail block)
      | none => recover .command s

/-- A command sequence ends here, whether or not the token that ends it is in place. -/
def sequenceEnds (s : List Char) : Bool :=
  s.isEmpty || starts .declarationSeparator s || starts .closeParen s

def commandEnd (s : List Char) : Reading :=
  let gap := gaps s
  match read? .statementSeparator gap.rest with
  | some (mark, rest) =>
    let piece : Piece :=
      if sequenceEnds (gaps rest).rest then .fault .danglingSeparator mark
      else .token .statementSeparator mark
    ⟨gap.pieces ++ [piece], rest, 0⟩
  | none =>
    if sequenceEnds gap.rest then ⟨[], s, 0⟩
    else (recover .commandEnd gap.rest).after gap.pieces

def sequenceStep (block : BlockReader) (scope : Scope) (s : List Char) : Option Reading :=
  let gap := gaps s
  if gap.rest.isEmpty || starts .declarationSeparator gap.rest then none
  else
    match read? .closeParen gap.rest with
    | some (close, rest) =>
      match scope with
      | .inner => none
      | .top => some ⟨gap.pieces ++ [.fault .strayClose close], rest, 0⟩
    | none =>
      match read? .statementSeparator gap.rest with
      | some (mark, rest) => some ⟨gap.pieces ++ [.fault .leadingSeparator mark], rest, 0⟩
      | none =>
        let r := ((command block gap.rest).andThen commandEnd).after gap.pieces
        some { r with commands := 1 }

/-- Commands up to the end of the sequence; the gap before that end is left to the caller. -/
def sequence (block : BlockReader) (scope : Scope) (s : List Char) : Reading :=
  .many (sequenceStep block scope) s

end GraphScribe.Program
