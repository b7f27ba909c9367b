import GraphScribe.Lexis.Lexicon

/-!
# The lexicon of control programs

A program declares macros over rules: `main = (init; grow!) or skip.` The words of the language are
reserved, and no rule, macro or declaration may bear one.
-/
namespace GraphScribe.Program

inductive Category where
  | identifier
  | keyword
  /-- An identifier that an equals sign follows. -/
  | declaration
  | declarationOperator
  | declarationSeparator
  | openParen
  | closeParen
  | openBrace
  | closeBrace
  | repetition
  | statementSeparator
  | ruleSeparator
  | comment
  | error
  deriving DecidableEq, Repr

def reservedWords : List String := ["if", "then", "else", "try", "or", "skip", "fail"]

def isReserved (word : String) : Bool := reservedWords.contains word

namespace Category

def name : Category → String
  | identifier => "Identifier"
  | keyword => "Keyword"
  | declaration => "Declaration"
  | declarationOperator => "DeclarationOperator"
  | declarationSeparator => "DeclarationSeparator"
  | openParen => "OpenParen"
  | closeParen => "CloseParen"
  | openBrace => "OpenBrace"
  | closeBrace => "CloseBrace"
  | repetition => "Repeat"
  | statementSeparator => "StatementSeparator"
  | ruleSeparator => "RuleSeparator"
  | comment => "Comment"
  | error => "Error"

def styleClass : Category → StyleClass
  | identifier => .identifier
  | declaration => .declaration
  | comment => .comment
  | error => .error
  | _ => .keyword

instance : Lexicon Category where
  comment := comment
  error := error
  all :=
    [identifier, keyword, declaration, declarationOperator, declarationSeparator, openParen,
      closeParen, openBrace, closeBrace, repetition, statementSeparator, ruleSeparator, comment,
      error]
  name := name
  styleClass := styleClass
  table :=
    [(keyword, .word reservedWords),
     (identifier, .name),
     (declarationOperator, .symbol ["="]),
     (declarationSeparator, .symbol ["."]),
     (openParen, .symbol ["("]),
     (closeParen, .symbol [")"]),
     (openBrace, .symbol ["\x7b"]),
     (closeBrace, .symbol ["\x7d"]),
     (repetition, .symbol ["!"]),
     (statementSeparator, .symbol [";"]),
     (ruleSeparator, .symbol [","])]

end Category

end GraphScribe.Program
