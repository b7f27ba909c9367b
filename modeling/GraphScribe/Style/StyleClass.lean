/-!
# Style classes

Every token category is drawn as one of these classes, so categories that must look alike share
a class whatever the colours are.
-/
namespace GraphScribe

inductive StyleClass where
  | plain
  | identifier
  | keyword
  | number
  | quotedString
  | comment
  | declaration
  | error
  deriving DecidableEq, Repr

namespace StyleClass

def all : List StyleClass :=
  [plain, identifier, keyword, number, quotedString, comment, declaration, error]

/-- The key of the class in configurations and listings. -/
def name : StyleClass → String
  | plain => "default"
  | identifier => "identifier"
  | keyword => "keyword"
  | number => "number"
  | quotedString => "quoted_string"
  | comment => "comment"
  | declaration => "declaration"
  | error => "error"

def ofName? (s : String) : Option StyleClass := all.find? fun c => c.name == s

def unknownMessage (s : String) : String := "unknown style class '" ++ s ++ "'"

end StyleClass

end GraphScribe
