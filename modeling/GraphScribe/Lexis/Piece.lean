import GraphScribe.Token.Basic

/-!
# Pieces of a text

Reading a text cuts it into pieces: blank runs, which are no tokens, tokens of a category, and
faults, which are tokens in error. Pieces carry no offsets; these follow from the pieces before.
-/
namespace GraphScribe.Lexis

inductive Piece (κ φ : Type) where
  | blank (run : List Char)
  | token (category : κ) (run : List Char)
  | fault (cause : φ) (run : List Char)
  deriving DecidableEq, Repr

namespace Piece

variable {κ φ : Type}

def run : Piece κ φ → List Char
  | blank r => r
  | token _ r => r
  | fault _ r => r

def text (ps : List (Piece κ φ)) : List Char := ps.flatMap run

@[simp] theorem text_nil : text ([] : List (Piece κ φ)) = [] := rfl

@[simp] theorem text_cons (p : Piece κ φ) (ps : List (Piece κ φ)) :
    text (p :: ps) = p.run ++ text ps := by
  simp [text]

@[simp] theorem text_append (ps qs : List (Piece κ φ)) : text (ps ++ qs) = text ps ++ text qs := by
  simp [text]

@[simp] theorem run_blank (r : List Char) : (blank r : Piece κ φ).run = r := rfl

@[simp] theorem run_token (c : κ) (r : List Char) : (token c r : Piece κ φ).run = r := rfl

@[simp] theorem run_fault (f : φ) (r : List Char) : (fault f r : Piece κ φ).run = r := rfl

end Piece

class Describable (φ : Type) where
  describe : φ → String → Nat → String

/-- The tokens of the pieces when the first piece begins at offset `start`. -/
def layOut {κ φ : Type} [Lexicon κ] [Describable φ] (start : Nat) :
    List (Piece κ φ) → List (Token κ)
  | [] => []
  | .blank r :: ps => layOut (start + Text.byteLength r) ps
  | .token c r :: ps => Token.ofRun c start r none :: layOut (start + Text.byteLength r) ps
  | .fault f r :: ps =>
    Token.ofRun Lexicon.error start r
        (some (Describable.describe f (String.ofList r) start)) ::
      layOut (start + Text.byteLength r) ps

end GraphScribe.Lexis
