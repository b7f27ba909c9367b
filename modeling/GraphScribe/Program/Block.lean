import GraphScribe.Program.Declaration

/-!
# Blocks and programs

A block is a name, `skip`, `fail`, a rule set in braces, or commands in parentheses, which may open
with declarations of their own. The reader of blocks is defined by recursion on the number of
levels that may still be opened, so no nesting of the input takes it deeper than that.
-/
namespace GraphScribe.Program

def ruleSetEnds (s : List Char) : Bool :=
  sequenceEnds s || starts .closeBrace s || starts .statementSeparator s

def ruleEnd (s : List Char) : Reading :=
  let gap := gaps s
  match read? .ruleSeparator gap.rest with
  | some (comma, rest) =>
    let piece : Piece :=
      if starts .identifier (gaps rest).rest then .token .ruleSeparator comma
      else .fault .danglingRuleSeparator comma
    ⟨gap.pieces ++ [piece], rest, 0⟩
  | none =>
    if ruleSetEnds gap.rest then ⟨[], s, 0⟩
    else (recover .ruleEnd gap.rest).after gap.pieces

def ruleStep (s : List Char) : Option Reading :=
  let gap := gaps s
  if ruleSetEnds gap.rest then none
  else
    match read? .identifier gap.rest with
    | none => some ((recover .ruleName gap.rest).after gap.pieces)
    | some (name, rest) =>
      let text := String.ofList name
      let piece : Piece :=
        if isReserved text then .fault (.reservedRule text) name else .token .identifier name
      some ((ruleEnd rest).after (gap.pieces ++ [piece]))

def ruleSet (brace s : List Char) : Reading :=
  let rules := Reading.many ruleStep s
  let gap := gaps rules.rest
  match read? .closeBrace gap.rest with
  | some (close, rest) =>
    ⟨.token .openBrace brace :: rules.pieces ++ gap.pieces ++ [.token .closeBrace close], rest, 0⟩
  | none => ⟨.fault .unclosedRuleSet brace :: rules.pieces, rules.rest, 0⟩

/-- A period inside a block, with the commands after it. Where a declaration or the end of the text
follows the period, it ends an enclosing declaration and the block has been left open. -/
def strayPeriodStep (block : BlockReader) (s : List Char) : Option Reading :=
  let gap := gaps s
  match read? .declarationSeparator gap.rest with
  | none => none
  | some (period, rest) =>
    let next := Text.dropBlank rest
    if next.isEmpty || startsDeclaration next then none
    else some ((sequence block .inner rest).after (gap.pieces ++ [.fault .strayPeriod period]))

def blockBody (block : BlockReader) (s : List Char) : Reading :=
  let locals := if startsDeclaration s then declarations block .inner s else ⟨[], s, 0⟩
  let first := sequence block .inner locals.rest
  let more := Reading.many (strayPeriodStep block) first.rest
  ⟨locals.pieces ++ first.pieces ++ more.pieces, more.rest, first.commands + more.commands⟩

def nestedBlock (block : BlockReader) (paren s : List Char) : Reading :=
  let body := blockBody block s
  let gap := gaps body.rest
  match read? .closeParen gap.rest with
  | some (close, rest) =>
    let piece : Piece :=
      if body.commands = 0 then .fault .emptyBlock close else .token .closeParen close
    ⟨.token .openParen paren :: body.pieces ++ gap.pieces ++ [piece], rest, 0⟩
  | none => ⟨.fault .unclosedBlock paren :: body.pieces, body.rest, 0⟩

/-- A keyword in the place of a block. `if` and `try` are taken for names; the others belong to the
command around the block. -/
def wordBlock (word rest : List Char) : Option Reading :=
  let text := String.ofList word
  if text = "skip" ∨ text = "fail" then some ⟨[.token .keyword word], rest, 0⟩
  else if text = "if" ∨ text = "try" then some ⟨[.fault (.reservedCommand text) word], rest, 0⟩
  else none

/-- The block at the front, with at most `levels` blocks in parentheses inside one another. -/
def block (levels : Nat) : BlockReader := fun s =>
  match read? .keyword s with
  | some (word, rest) => wordBlock word rest
  | none =>
    match read? .openParen s with
    | some (paren, rest) =>
      match levels with
      | 0 => some ⟨[.fault .nestedTooDeep paren], rest, 0⟩
      | n + 1 => some (nestedBlock (block n) paren rest)
    | none =>
      match read? .openBrace s with
      | some (brace, rest) => some (ruleSet brace rest)
      | none =>
        match read? .identifier s with
        | some (name, rest) => some ⟨[.token .identifier name], rest, 0⟩
        | none => none

def pieces (s : List Char) : List Piece :=
  let r := declarations (block maxNesting) .top s
  r.pieces ++ (gaps r.rest).pieces

def tokens (text : String) : Array (Token Category) :=
  (Lexis.layOut 0 (pieces text.toList)).toArray

end GraphScribe.Program
