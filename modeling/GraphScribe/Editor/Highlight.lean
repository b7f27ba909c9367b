import GraphScribe.Lexis.Gap
import GraphScribe.Style.StyleSheet
import GraphScribe.Text.Lines
import GraphScribe.Token.Sequence

/-!
# Highlighting

An editor draws a text block by block, a block being a line without its terminator. A block is
styled from the tokens of the last parse, which may be those of an older text, and from the state
carried in from the block before: a comment that was still open there covers this block up to the
first comment end in it, whatever the tokens say.
-/
namespace GraphScribe

inductive BlockState where
  | normal
  | inComment
  deriving DecidableEq, Repr

structure StyledRange where
  start : Nat
  length : Nat
  styleClass : StyleClass
  style : Style
  deriving DecidableEq, Repr

def StyledRange.stop (r : StyledRange) : Nat := r.start + r.length

structure BlockHighlight where
  ranges : List StyledRange
  state : BlockState
  deriving DecidableEq, Repr

namespace StyleSheet

variable {κ : Type} [DecidableEq κ] [Lexicon κ]

def range (sheet : StyleSheet) (start stop : Nat) (c : StyleClass) : List StyledRange :=
  if start < stop then [⟨start, stop - start, c, sheet.get c⟩] else []

/-- The part of the token that lies in the block `start ..< stop` beyond its first `covered`
bytes. -/
def clip (sheet : StyleSheet) (start stop covered : Nat) (t : Token κ) : List StyledRange :=
  sheet.range (max (max t.start start - start) covered) (min t.stop stop - start)
    (Lexicon.styleClass t.category)

def goesOn (stop : Nat) (t : Token κ) : Bool := t.category = Lexicon.comment && stop < t.stop

def stateAfter (goesOn : Bool) : BlockState := if goesOn then .inComment else .normal

/-- Styles the block that begins at offset `start`, its first `covered` bytes excepted. One token
may cover the whole block; then nothing else does. -/
def highlightTokens (sheet : StyleSheet) (ts : Tokens κ) (start stop covered : Nat) :
    BlockHighlight :=
  let found := (ts.overlapping start stop).toList
  match found.find? fun t => covered == 0 && t.start ≤ start && stop ≤ t.stop with
  | some t =>
    ⟨sheet.range 0 (stop - start) (Lexicon.styleClass t.category), stateAfter (goesOn stop t)⟩
  | none =>
    ⟨found.flatMap (sheet.clip start stop covered), stateAfter (found.any (goesOn stop))⟩

def highlightBlock (sheet : StyleSheet) (ts : Tokens κ) (block : List Char) (start : Nat)
    (previous : BlockState) : BlockHighlight :=
  let length := Text.byteLength block
  match previous with
  | .normal => sheet.highlightTokens ts start (start + length) 0
  | .inComment =>
    match Lexis.closing? block with
    | none => ⟨sheet.range 0 length .comment, .inComment⟩
    | some (carried, _) =>
      let covered := Text.byteLength carried
      let own := sheet.highlightTokens ts start (start + length) covered
      ⟨sheet.range 0 covered .comment ++ own.ranges, own.state⟩

def highlightBlocks (sheet : StyleSheet) (ts : Tokens κ) :
    BlockState → List (Nat × List Char) → List BlockHighlight
  | _, [] => []
  | state, (start, block) :: blocks =>
    let h := sheet.highlightBlock ts block start state
    h :: highlightBlocks sheet ts h.state blocks

def highlightLines (sheet : StyleSheet) (ts : Tokens κ) (text : String) : List BlockHighlight :=
  sheet.highlightBlocks ts .normal (Text.lineBlocks text.toList)

end StyleSheet

end GraphScribe
