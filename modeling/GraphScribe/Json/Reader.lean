import GraphScribe.Json.Number

/-!
# Reading JSON text

The grammar of RFC 8259 with nothing added. What can be written but has no value, a text with half a
surrogate pair or a number beyond the range of doubles, is read as a value that no field takes.
-/
namespace GraphScribe.Json

def isSpace (c : Char) : Bool := c == ' ' || c == '\n' || c == '\r' || c == '\t'

def skipSpace (s : List Char) : List Char := s.dropWhile isSpace

def unit? : List Char → Option (Nat × List Char)
  | a :: b :: c :: d :: s => do
    let a ← Number.hexValue? a
    let b ← Number.hexValue? b
    let c ← Number.hexValue? c
    let d ← Number.hexValue? d
    return (((a * 16 + b) * 16 + c) * 16 + d, s)
  | _ => none

def lowHalf? : List Char → Option (Nat × List Char)
  | '\\' :: 'u' :: s => (unit? s).filter fun r => 0xDC00 ≤ r.1 && r.1 < 0xE000
  | _ => none

/-- What an escape with code units names: a character, or nothing if it is half of a surrogate pair
that stands alone. -/
def unicodeEscape? (s : List Char) : Option (Option Char × List Char) := do
  let (unit, s) ← unit? s
  if 0xD800 ≤ unit ∧ unit < 0xDC00 then
    match lowHalf? s with
    | some (low, s) =>
      return (some (Char.ofNat (0x10000 + (unit - 0xD800) * 0x400 + (low - 0xDC00))), s)
    | none => return (none, s)
  else if 0xDC00 ≤ unit ∧ unit < 0xE000 then return (none, s)
  else return (some (Char.ofNat unit), s)

def shortEscape? : Char → Option Char
  | '"' => some '"'
  | '\\' => some '\\'
  | '/' => some '/'
  | 'b' => some '\x08'
  | 'f' => some '\x0c'
  | 'n' => some '\n'
  | 'r' => some '\r'
  | 't' => some '\t'
  | _ => none

def stringChar? : List Char → Option (Option Char × List Char)
  | '\\' :: 'u' :: s => unicodeEscape? s
  | '\\' :: c :: s => (shortEscape? c).map fun c => (some c, s)
  | c :: s => if c.toNat < 32 ∨ c = '"' ∨ c = '\\' then none else some (some c, s)
  | [] => none

def stringBody? : Nat → List Char → Option (List (Option Char) × List Char)
  | _, '"' :: rest => some ([], rest)
  | 0, _ => none
  | fuel + 1, s => do
    let (c, s) ← stringChar? s
    let (cs, s) ← stringBody? fuel s
    return (c :: cs, s)

/-- A string whose opening quote has been read. It has no text if half a character is in it. -/
def string? (fuel : Nat) (s : List Char) : Option (Option String × List Char) :=
  (stringBody? fuel s).map fun r => ((r.1.mapM id).map String.ofList, r.2)

def ofText : Option String → Json
  | some s => str s
  | none => unpaired

def ofMembers (members : List (Option String × Json)) : Json :=
  match members.mapM fun m => m.1.map (·, m.2) with
  | some ms => obj ms
  | none => unpaired

def literal? (word : String) (value : Json) (s : List Char) : Option (Json × List Char) :=
  if word.toList.isPrefixOf s then some (value, s.drop word.length) else none

def elements? (value? : List Char → Option (Json × List Char)) :
    Nat → List Char → Option (List Json × List Char)
  | 0, _ => none
  | fuel + 1, s => do
    let (v, s) ← value? (skipSpace s)
    match skipSpace s with
    | ',' :: s =>
      let (vs, s) ← elements? value? fuel s
      return (v :: vs, s)
    | ']' :: s => return ([v], s)
    | _ => none

def members? (value? : List Char → Option (Json × List Char)) :
    Nat → List Char → Option (List (Option String × Json) × List Char)
  | 0, _ => none
  | fuel + 1, s => do
    let (k, s) ← match skipSpace s with
      | '"' :: s => string? fuel s
      | _ => none
    let (v, s) ← match skipSpace s with
      | ':' :: s => value? (skipSpace s)
      | _ => none
    match skipSpace s with
    | ',' :: s =>
      let (ms, s) ← members? value? fuel s
      return ((k, v) :: ms, s)
    | '\x7d' :: s => return ([(k, v)], s)
    | _ => none

/-- The value at the front, read in at most `fuel` steps. As many steps as there are characters are
enough, however deep arrays and objects are nested. -/
def value? (fuel : Nat) (s : List Char) : Option (Json × List Char) :=
  match s with
  | '"' :: s => (string? fuel s).map fun r => (ofText r.1, r.2)
  | '-' :: s => number? true s
  | 't' :: _ => literal? "true" (bool true) s
  | 'f' :: _ => literal? "false" (bool false) s
  | 'n' :: _ => literal? "null" null s
  | '[' :: s =>
    match fuel with
    | 0 => none
    | n + 1 =>
      match skipSpace s with
      | ']' :: s => some (arr [], s)
      | _ => (elements? (value? n) n s).map fun r => (arr r.1, r.2)
  | '\x7b' :: s =>
    match fuel with
    | 0 => none
    | n + 1 =>
      match skipSpace s with
      | '\x7d' :: s => some (obj [], s)
      | _ => (members? (value? n) n s).map fun r => (ofMembers r.1, r.2)
  | s => number? false s

def parse? (text : String) : Option Json :=
  let s := skipSpace text.toList
  match value? s.length s with
  | some (v, rest) => if (skipSpace rest).isEmpty then some v else none
  | none => none

end GraphScribe.Json
