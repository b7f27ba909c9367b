import GraphScribe.Lexis.Piece

/-!
# The lexicon of rule conditions

A condition restricts where a rule applies: `indeg(n) > 2 and not edge(n, m)`.
-/
namespace GraphScribe.Condition

inductive Category where
  | identifier
  | number
  | quotedString
  | keyword
  | operator
  | openParen
  | closeParen
  | commentOpen
  | commentClose
  | comment
  | error
  deriving DecidableEq, Repr

def keywords : List String :=
  ["edge", "node", "not", "and", "or", "int", "string", "atom", "empty", "true", "false", "indeg",
    "outdeg"]

/-- Keywords that are a value rather than introduce one. -/
def valueKeywords : List String := ["empty", "true", "false"]

namespace Category

def name : Category → String
  | identifier => "Identifier"
  | number => "Number"
  | quotedString => "QuotedString"
  | keyword => "Keyword"
  | operator => "Operator"
  | openParen => "OpenParen"
  | closeParen => "CloseParen"
  | commentOpen => "CommentOpen"
  | commentClose => "CommentClose"
  | comment => "Comment"
  | error => "Error"

def styleClass : Category → StyleClass
  | identifier => .identifier
  | number => .number
  | quotedString => .quotedString
  | keyword | operator | openParen | closeParen => .keyword
  | commentOpen | commentClose | comment => .comment
  | error => .error

instance : Lexicon Category where
  comment := comment
  error := error
  all :=
    [identifier, number, quotedString, keyword, operator, openParen, closeParen, commentOpen,
      commentClose, comment, error]
  name := name
  styleClass := styleClass
  table :=
    [(commentOpen, .symbol ["/*"]),
     (commentClose, .symbol ["*/"]),
     (keyword, .word keywords),
     (number, .number),
     (quotedString, .quotation),
     (identifier, .name),
     (operator, .symbol ["!=", ">=", "<=", "=", ",", ">", "<", "-", "+", "/", "*"]),
     (openParen, .symbol ["("]),
     (closeParen, .symbol [")"])]

end Category

inductive Fault where
  | unexpected
  | strayCommentClose
  | strayClose
  | unclosedParen
  deriving DecidableEq, Repr

namespace Fault

def describe (f : Fault) (text : String) (start : Nat) : String :=
  match f with
  | unexpected =>
    "Unexpected token " ++ text ++ " at position " ++ toString start ++
      ". Expecting a condition."
  | strayCommentClose => "Unmatched comment close marker. Expecting a condition."
  | strayClose => "Unmatched parenthesis: no open '(' to close."
  | unclosedParen => "Unmatched parenthesis: expecting ')'."

instance : Lexis.Describable Fault := ⟨describe⟩

end Fault

abbrev Piece := Lexis.Piece Category Fault

end GraphScribe.Condition
