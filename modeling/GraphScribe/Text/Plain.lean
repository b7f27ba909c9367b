/-!
# Plain text

The characters of a text that a terminal would show. Control characters act on the terminal, as do
control sequences, which an escape character begins; neither is part of the plain text.
-/
namespace GraphScribe.Text

inductive ControlSequence where
  | none
  | escape
  | escapeIntermediate
  | parameters
  | systemCommand
  | deviceEntry
  | deviceParameters
  | deviceIntermediate
  | controlString
  deriving DecidableEq, Repr

/-- The control characters that move the text on and so belong to it. -/
def isSpacing (c : Char) : Bool := c == '\t' || c == '\n' || c == '\x0c' || c == '\r'

def isShown (c : Char) : Bool := isSpacing c || (0x20 ≤ c.toNat && c.toNat != 0x7F)

namespace ControlSequence

def isWithin (low high : Nat) (c : Char) : Bool := low ≤ c.toNat && c.toNat ≤ high

/-- The string terminator as a single byte, which ends a string also inside a longer character. -/
def hasTerminator (c : Char) : Bool := (String.utf8EncodeChar c).contains 0x9C

def next (s : ControlSequence) (c : Char) : ControlSequence :=
  if c = '\x18' ∨ c = '\x1a' then none
  else if c = '\x1b' then escape
  else
    match s with
    | none => none
    | escape =>
      if isWithin 0x20 0x2F c then escapeIntermediate
      else if c = '[' then parameters
      else if c = ']' then systemCommand
      else if c = 'P' then deviceEntry
      else if c = 'X' ∨ c = '^' ∨ c = '_' then controlString
      else if isWithin 0x30 0x7E c then none
      else escape
    | escapeIntermediate => if isWithin 0x30 0x7E c then none else escapeIntermediate
    | parameters => if isWithin 0x40 0x7E c then none else parameters
    | systemCommand => if c = '\x07' then none else systemCommand
    | deviceEntry =>
      if isWithin 0x20 0x2F c then deviceIntermediate
      else if isWithin 0x30 0x3F c then deviceParameters
      else if isWithin 0x40 0x7E c then controlString
      else deviceEntry
    | deviceParameters =>
      if isWithin 0x20 0x2F c then deviceIntermediate
      else if isWithin 0x30 0x3B c then deviceParameters
      else if isWithin 0x3C 0x7E c then controlString
      else deviceParameters
    | deviceIntermediate => if isWithin 0x30 0x7E c then controlString else deviceIntermediate
    | controlString => if hasTerminator c then none else controlString

def shows (s : ControlSequence) (c : Char) : Bool :=
  match s with
  | none => isShown c
  | escape | escapeIntermediate | parameters => isSpacing c
  | _ => false

end ControlSequence

/-- What shows of a text that is read in a sequence. After a character that shows, `shown`, all
others up to the next control character show too, even if they would end a sequence. -/
def visible (shown : Bool) (s : ControlSequence) : List Char → List Char
  | [] => []
  | c :: cs =>
    if shown && isShown c then
      c :: visible true (if c.toNat < 0x80 then s else .none) cs
    else if s.shows c then c :: visible true (s.next c) cs
    else visible false (s.next c) cs

def plain (s : String) : String := String.ofList (visible false .none s.toList)

end GraphScribe.Text
