import GraphScribe.Condition.Reading
import GraphScribe.Program.Block
import GraphScribe.Token.Sequence

/-!
# Languages

A language is a lexicon with a reader for its texts. The editor knows two.
-/
namespace GraphScribe

class Language (κ : Type) extends Lexicon κ where
  tokenize : String → Tokens κ

instance : Language Program.Category where
  tokenize := Program.tokens

instance : Language Condition.Category where
  tokenize := Condition.tokens

end GraphScribe
