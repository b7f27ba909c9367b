import GraphScribe.Lexis.Gap
import GraphScribe.Token.Sequence

/-!
# Scanners

A scanner is a cursor into a text together with the tokens taken so far. It offers a host the steps
a reader is made of: skipping gaps, taking a token of a category, recovering from text that fits
none, and changing a token after the fact. A step that takes something moves the cursor; a step that
declines, a peek and a change leave it where it is.
-/
namespace GraphScribe

structure Scanner (κ : Type) where
  source : List Char
  position : Nat
  rest : List Char
  tokens : Tokens κ
  deriving DecidableEq, Repr

namespace Scanner

variable {κ : Type}

def start (source : List Char) : Scanner κ := ⟨source, 0, source, #[]⟩

def atEnd (s : Scanner κ) : Bool := s.rest.isEmpty

def skip (s : Scanner κ) (cut : Lexis.Cut) : Scanner κ :=
  { s with position := s.position + Text.byteLength cut.1, rest := cut.2 }

def push (s : Scanner κ) (c : κ) (description : Option String) (cut : Lexis.Cut) : Scanner κ :=
  { s.skip cut with tokens := s.tokens.push (Token.ofRun c s.position cut.1 description) }

def blanks? (s : Scanner κ) : Option (Scanner κ) :=
  match s.rest.takeWhile Text.isBlank with
  | [] => none
  | run => some (s.skip (run, s.rest.dropWhile Text.isBlank))

variable [Lexicon κ]

def comment? (s : Scanner κ) : Option (Scanner κ) :=
  (Lexis.readComment s.rest).map (s.push Lexicon.comment none)

omit [Lexicon κ] in
theorem blanks?_shorter {s t : Scanner κ} (h : s.blanks? = some t) :
    t.rest.length < s.rest.length := by
  unfold blanks? at h
  split at h
  · cases h
  · rename_i run hne
    cases h
    exact Lexis.shorter_of_append List.takeWhile_append_dropWhile hne

theorem comment?_shorter {s t : Scanner κ} (h : s.comment? = some t) :
    t.rest.length < s.rest.length := by
  obtain ⟨c, hc, rfl⟩ := Option.map_eq_some_iff.mp h
  exact Lexis.readComment_shorter hc

def gaps (s : Scanner κ) : Scanner κ :=
  match h : s.blanks? with
  | some t =>
    have := blanks?_shorter h
    gaps t
  | none =>
    match h : s.comment? with
    | some t =>
      have := comment?_shorter h
      gaps t
    | none => s
termination_by s.rest.length

/-- Takes a name or a single character as a token in error. -/
def recover (s : Scanner κ) (expected : String) : Scanner κ :=
  match Lexis.readStray s.rest with
  | none => s
  | some cut =>
    let description := "Unexpected token " ++ String.ofList cut.1 ++ " at position " ++
      toString s.position ++ ". " ++ expected
    s.push Lexicon.error (some description) cut

variable [DecidableEq κ]

def peek? (s : Scanner κ) (c : κ) : Option (List Char) := (Lexicon.read? c s.rest).map (·.1)

def take? (s : Scanner κ) (c : κ) : Option (Scanner κ) :=
  (Lexicon.read? c s.rest).map (s.push c none)

def takeAny? (s : Scanner κ) (accept : κ → Bool) : Option (Scanner κ) :=
  (Lexicon.readAny? accept s.rest).map fun r => s.push r.1 none r.2

def markError (s : Scanner κ) (index : Nat) (description : String) : Scanner κ :=
  { s with tokens := s.tokens.modify index fun t =>
      { t with category := Lexicon.error, description := some description } }

/-- Changes the category of a token and keeps its description. -/
def recategorize (s : Scanner κ) (index : Nat) (c : κ) : Scanner κ :=
  { s with tokens := s.tokens.modify index fun t => { t with category := c } }

end Scanner

end GraphScribe
