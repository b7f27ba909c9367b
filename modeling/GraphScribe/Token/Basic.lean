import GraphScribe.Text.Bytes
import GraphScribe.Lexis.Lexicon

/-!
# Tokens

A token is a category with the text it stands for, the byte offsets between which that text lies,
and, for a token in error, what is wrong.
-/
namespace GraphScribe

structure Token (κ : Type) where
  start : Nat
  stop : Nat
  category : κ
  text : String
  description : Option String
  deriving DecidableEq, Repr

namespace Token

variable {κ : Type}

/-- The token of category `c` whose text `run` begins at offset `start`. -/
def ofRun (c : κ) (start : Nat) (run : List Char) (description : Option String) : Token κ :=
  ⟨start, start + Text.byteLength run, c, String.ofList run, description⟩

def length (t : Token κ) : Nat := t.stop - t.start

def isEmpty (t : Token κ) : Bool := t.start == t.stop

def isError [DecidableEq κ] [Lexicon κ] (t : Token κ) : Bool := t.category = Lexicon.error

def contains (t : Token κ) (offset : Nat) : Bool := t.start ≤ offset && offset < t.stop

def intersects (t : Token κ) (start stop : Nat) : Bool := t.start < stop && start < t.stop

def display [Lexicon κ] (t : Token κ) : String :=
  Lexicon.name t.category ++ "(" ++ t.text ++ ")"

def listing [Lexicon κ] (t : Token κ) : String :=
  let line := toString t.start ++ ".." ++ toString t.stop ++ " " ++ t.display
  match t.description with
  | some d => line ++ " " ++ d
  | none => line

end Token

end GraphScribe
