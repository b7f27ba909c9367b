import GraphScribe.Editor.Highlight
import GraphScribe.Editor.Session

/-!
# Editor buffers

What an editor holds for each open document: the parse session and the styles to draw with.
Highlighting and diagnostics are answered from the tokens of the last parse.
-/
namespace GraphScribe

structure Buffer (κ : Type) where
  session : Session κ := {}
  styles : StyleSheet := {}
  deriving DecidableEq, Repr

namespace Buffer

variable {κ : Type}

def setText (b : Buffer κ) (text : String) : Buffer κ :=
  { b with session := b.session.setText text }

def setStyles (b : Buffer κ) (styles : StyleSheet) : Buffer κ := { b with styles := styles }

def text (b : Buffer κ) : String := b.session.text

def tokens (b : Buffer κ) : Tokens κ := b.session.tokens

def reparse [Language κ] (b : Buffer κ) : Buffer κ × ParseStatus :=
  let r := b.session.parse
  ({ b with session := r.1 }, r.2)

def ofText [Language κ] (styles : StyleSheet) (text : String) : Buffer κ :=
  (({ styles := styles : Buffer κ }).setText text).reparse.1

variable [DecidableEq κ] [Language κ]

def highlightBlock (b : Buffer κ) (block : String) (start : Nat) (previous : BlockState) :
    BlockHighlight :=
  b.styles.highlightBlock b.tokens block.toList start previous

def highlightLines (b : Buffer κ) : List BlockHighlight := b.styles.highlightLines b.tokens b.text

/-- The error token under the offset, to be shown when the pointer rests there. -/
def diagnosticAt? (b : Buffer κ) (offset : Nat) : Option (Token κ) := b.tokens.diagnosticAt? offset

end Buffer

end GraphScribe
