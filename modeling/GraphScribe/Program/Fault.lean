import GraphScribe.Lexis.Piece

/-!
# What can be wrong in a program

A fault is put on one token: on the text that fits no production, or on the token that opened or
closed the construct in which something is missing.
-/
namespace GraphScribe.Program

inductive Expectation where
  | declaration
  | command
  | commandEnd
  | ruleName
  | ruleEnd
  deriving DecidableEq, Repr

def Expectation.message : Expectation → String
  | declaration => "Expecting a declaration."
  | command => "Expecting a command."
  | commandEnd => "Expecting ';' or '.' after a command."
  | ruleName => "Expecting a rule name."
  | ruleEnd => "Expecting ',' or '\x7d' in a rule set."

/-- Blocks that may be open at any point. -/
def maxNesting : Nat := 64

inductive Fault where
  | unexpected (expected : Expectation)
  | missingEquals (name : String)
  | reservedDeclaration (name : String)
  | emptyDeclaration (name : String)
  | leadingSeparator
  | danglingSeparator
  | missingCondition
  | missingThen
  | missingThenCommand
  | missingTryCommand
  | missingAlternative
  | missingElseCommand
  | reservedCommand (word : String)
  | nestedTooDeep
  | emptyBlock
  | unclosedBlock
  | strayPeriod
  | strayClose
  | unclosedRuleSet
  | reservedRule (name : String)
  | danglingRuleSeparator
  deriving DecidableEq, Repr

namespace Fault

def describe (f : Fault) (text : String) (start : Nat) : String :=
  match f with
  | unexpected e =>
    "Unexpected token " ++ text ++ " at position " ++ toString start ++ ". " ++ e.message
  | missingEquals name => "Expecting '=' after declaration name '" ++ name ++ "'."
  | reservedDeclaration name =>
    "Reserved keyword '" ++ name ++ "' cannot be used as a declaration name."
  | emptyDeclaration name => "Empty declaration '" ++ name ++ "': expecting a command before '.'."
  | leadingSeparator => "Expecting a command before ';'."
  | danglingSeparator => "Dangling ';': expecting a command after the separator."
  | missingCondition => "Expecting a condition after 'if'."
  | missingThen => "Expecting 'then' after the 'if' condition."
  | missingThenCommand => "Expecting a command after 'then'."
  | missingTryCommand => "Expecting a command after 'try'."
  | missingAlternative => "Expecting a command after 'or'."
  | missingElseCommand => "Expecting a command after 'else'."
  | reservedCommand word =>
    "Reserved keyword '" ++ word ++ "' cannot be used as a rule or macro name."
  | nestedTooDeep =>
    "Nesting too deep: blocks may nest at most " ++ toString maxNesting ++ " levels."
  | emptyBlock => "Empty block: expecting a command before ')'."
  | unclosedBlock => "Unmatched parenthesis: expecting ')' to close this block."
  | strayPeriod => "Unexpected '.' inside a block: expecting ')'."
  | strayClose => "Unmatched parenthesis: no parent scope to exit to."
  | unclosedRuleSet => "Unmatched brace: expecting '\x7d' to close this rule set."
  | reservedRule name => "Reserved keyword '" ++ name ++ "' cannot be used as a rule name."
  | danglingRuleSeparator => "Dangling ',': expecting a rule name after the separator."

instance : Lexis.Describable Fault := ⟨describe⟩

end Fault

end GraphScribe.Program
