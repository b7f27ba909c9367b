import GraphScribe.Token.Sequence

/-!
# Checks on token sequences

Statements about a token sequence that can be decided, for tests of a lexicon or a grammar.
-/
namespace GraphScribe

inductive TokenCheck (κ : Type) where
  | count (n : Nat)
  | noErrors
  | errorCount (n : Nat)
  | summary (expected : List (κ × String))
  | lastText (text : String)
  | category (index : Nat) (c : κ)
  | text (index : Nat) (text : String)
  | span (index start stop : Nat)
  | isError (index : Nat)
  /-- The description of the token begins with `lead`; a token without one counts as described by
  the empty text. -/
  | description (index : Nat) (lead : String)
  deriving DecidableEq, Repr

namespace TokenCheck

variable {κ : Type} [DecidableEq κ] [Lexicon κ]

/-- The statement holds; one about a token that is not there does not. -/
def holds (ts : Tokens κ) : TokenCheck κ → Bool
  | count n => ts.size == n
  | noErrors => !ts.hasErrors
  | errorCount n => ts.errors.size == n
  | summary expected => ts.summary == expected
  | lastText s => ts.back?.any fun t => t.text == s
  | category i c => ts[i]?.any fun t => t.category = c
  | text i s => ts[i]?.any fun t => t.text == s
  | span i start stop => ts[i]?.any fun t => t.start == start && t.stop == stop
  | isError i => ts[i]?.any (·.isError)
  | description i lead =>
    ts[i]?.any fun t => lead.toList.isPrefixOf (t.description.getD "").toList

end TokenCheck

end GraphScribe
