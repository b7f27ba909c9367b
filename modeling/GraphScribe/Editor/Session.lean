import GraphScribe.Editor.Language

/-!
# Parse sessions

A session holds the current text and the tokens of the text parsed last. A text that equals that
one is not parsed again.
-/
namespace GraphScribe

inductive ParseStatus where
  | reparsed
  | unchanged
  deriving DecidableEq, Repr

structure Session (κ : Type) where
  text : String := ""
  /-- The text that `tokens` belongs to. -/
  parsed : Option String := none
  tokens : Tokens κ := #[]
  passes : Nat := 0
  deriving DecidableEq, Repr

namespace Session

variable {κ : Type}

def setText (s : Session κ) (text : String) : Session κ := { s with text := text }

def parse [Language κ] (s : Session κ) : Session κ × ParseStatus :=
  if s.parsed = some s.text then (s, .unchanged)
  else
    ({ s with
        parsed := some s.text
        tokens := Language.tokenize s.text
        passes := s.passes + 1 },
      .reparsed)

def parseText [Language κ] (s : Session κ) (text : String) : Session κ × ParseStatus :=
  (s.setText text).parse

end Session

end GraphScribe
