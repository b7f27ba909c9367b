import GraphScribe.Token.Basic

/-!
# Token sequences

The tokens of one text, in ascending order and without overlap. Look-ups by offset rely on that
order and bisect.
-/
namespace GraphScribe

abbrev Tokens (κ : Type) := Array (Token κ)

/-- The least index in `low ..< high` at which `p` fails, if it holds up to some index of that
window and fails from there on; `high` where it never fails. -/
def bisect {α : Type} (xs : Array α) (p : α → Bool) (low high : Nat) : Nat :=
  if _h : low < high then
    let mid := low + (high - low) / 2
    match xs[mid]? with
    | some x => if p x then bisect xs p (mid + 1) high else bisect xs p low mid
    | none => bisect xs p low mid
  else low
termination_by high - low

def frontCount {α : Type} (xs : Array α) (p : α → Bool) : Nat := bisect xs p 0 xs.size

namespace Tokens

variable {κ : Type}

def at? (ts : Tokens κ) (offset : Nat) : Option (Token κ) :=
  match frontCount ts fun t => t.start ≤ offset with
  | 0 => none
  | n + 1 => ts[n]?.filter fun t => t.contains offset

def overlapping (ts : Tokens κ) (start stop : Nat) : Tokens κ :=
  let first := frontCount ts fun t => t.stop ≤ start
  let last := frontCount ts fun t => t.start < stop
  if first ≥ last then #[] else ts.extract first last

variable [Lexicon κ]

def errors [DecidableEq κ] (ts : Tokens κ) : Tokens κ := ts.filter (·.isError)

def hasErrors [DecidableEq κ] (ts : Tokens κ) : Bool := ts.any (·.isError)

def diagnosticAt? [DecidableEq κ] (ts : Tokens κ) (offset : Nat) : Option (Token κ) :=
  (at? ts offset).filter (·.isError)

def display (ts : Tokens κ) : String := " ".intercalate (ts.toList.map Token.display)

def listing (ts : Tokens κ) : String := "\n".intercalate (ts.toList.map Token.listing)

def summary (ts : Tokens κ) : List (κ × String) := ts.toList.map fun t => (t.category, t.text)

end Tokens

end GraphScribe
