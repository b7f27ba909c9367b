import GraphScribe.Lexis.Gap
import GraphScribe.Condition.Category

/-!
# Reading conditions

A condition is read one lexeme at a time. The reader remembers only whether an operand may come
next: there a minus sign belongs to the digits after it, anywhere else it subtracts. Parentheses are
paired afterwards, over the pieces of the whole text; those left without a partner become faults.
-/
namespace GraphScribe.Condition

structure Step where
  piece : Piece
  operandNext : Bool
  rest : List Char
  deriving Repr

def read? (c : Category) (s : List Char) : Option Lexis.Cut := Lexicon.read? c s

def introducesOperand (c : Category) (run : List Char) : Bool :=
  match c with
  | .operator => true
  | .keyword => !valueKeywords.contains (String.ofList run)
  | _ => false

def isWord (signed : Bool) : Category → Bool
  | .number => signed
  | .keyword | .quotedString | .identifier | .operator => true
  | _ => false

def lexeme? (operandNext : Bool) (s : List Char) : Option Step :=
  match read? .commentClose s with
  | some (mark, rest) => some ⟨.fault .strayCommentClose mark, operandNext, rest⟩
  | none =>
    match read? .openParen s with
    | some (paren, rest) => some ⟨.token .openParen paren, true, rest⟩
    | none =>
      match read? .closeParen s with
      | some (paren, rest) => some ⟨.token .closeParen paren, false, rest⟩
      | none =>
        (Lexicon.readAny? (isWord (operandNext || s.head? != some '-')) s).map fun r =>
          ⟨.token r.1 r.2.1, introducesOperand r.1 r.2.1, r.2.2⟩

/-- One piece at the front; none at the end of the text only. -/
def step? (operandNext : Bool) (s : List Char) : Option Step :=
  match Lexis.gap? s with
  | some (gap, rest) => some ⟨gap, operandNext, rest⟩
  | none =>
    match lexeme? operandNext s with
    | some step => some step
    | none => (Lexis.readStray s).map fun c => ⟨.fault .unexpected c.1, true, c.2⟩

theorem lexeme?_shorter {operandNext : Bool} {s : List Char} {step : Step}
    (h : lexeme? operandNext s = some step) : step.rest.length < s.length := by
  unfold lexeme? at h
  split at h
  · rename_i hr; cases h; exact Lexicon.read?_shorter hr
  split at h
  · rename_i hr; cases h; exact Lexicon.read?_shorter hr
  split at h
  · rename_i hr; cases h; exact Lexicon.read?_shorter hr
  obtain ⟨r, hr, rfl⟩ := Option.map_eq_some_iff.mp h
  exact Lexicon.readAny?_shorter hr

theorem step?_shorter {operandNext : Bool} {s : List Char} {step : Step}
    (h : step? operandNext s = some step) : step.rest.length < s.length := by
  unfold step? at h
  split at h
  · rename_i hg; cases h; exact Lexis.gap?_shorter hg
  split at h
  · rename_i hl; cases h; exact lexeme?_shorter hl
  obtain ⟨c, hc, rfl⟩ := Option.map_eq_some_iff.mp h
  exact Lexis.readStray_shorter hc

/-- The pieces of a text, every parenthesis taken for one that has a partner. -/
def scan (operandNext : Bool) (s : List Char) : List Piece :=
  match h : step? operandNext s with
  | none => []
  | some step =>
    have := step?_shorter h
    step.piece :: scan step.operandNext step.rest
termination_by s.length

/-- Marks the closing parentheses before which none of the `depth` outer and the earlier opening
ones is left. -/
def markStrayCloses : Nat → List Piece → List Piece
  | _, [] => []
  | depth, .token .openParen run :: ps =>
    .token .openParen run :: markStrayCloses (depth + 1) ps
  | 0, .token .closeParen run :: ps => .fault .strayClose run :: markStrayCloses 0 ps
  | depth + 1, .token .closeParen run :: ps =>
    .token .closeParen run :: markStrayCloses depth ps
  | depth, p :: ps => p :: markStrayCloses depth ps

/-- Marks the opening parentheses that no later closing one is left for, and counts the closing
ones left over. -/
def markUnclosed : List Piece → Nat × List Piece
  | [] => (0, [])
  | .token .closeParen run :: ps =>
    let (free, marked) := markUnclosed ps
    (free + 1, .token .closeParen run :: marked)
  | .token .openParen run :: ps =>
    match markUnclosed ps with
    | (0, marked) => (0, .fault .unclosedParen run :: marked)
    | (free + 1, marked) => (free, .token .openParen run :: marked)
  | p :: ps =>
    let (free, marked) := markUnclosed ps
    (free, p :: marked)

def pieces (s : List Char) : List Piece := (markUnclosed (markStrayCloses 0 (scan true s))).2

def tokens (text : String) : Array (Token Category) :=
  (Lexis.layOut 0 (pieces text.toList)).toArray

end GraphScribe.Condition
