import GraphScribe.Number.Numeral

/-!
# Blanks, strings and keys in TOML

Every reader takes the front of a text and returns what it read with the text that follows. A
control character other than the tabulator may stand nowhere, a carriage return only before a line
feed.
-/
namespace GraphScribe.Toml

def isSpace (c : Char) : Bool := c == ' ' || c == '\t'

def skipSpace (s : List Char) : List Char := s.dropWhile isSpace

def isPrintable (c : Char) : Bool := c == '\t' || (' ' ≤ c && c != '\x7f')

def newline? : List Char → Option (List Char)
  | '\n' :: s => some s
  | '\r' :: '\n' :: s => some s
  | _ => none

def skipComment : List Char → List Char
  | '#' :: s => s.dropWhile isPrintable
  | s => s

def lineEnd? (s : List Char) : Option (List Char) :=
  match skipComment (skipSpace s) with
  | [] => some []
  | s => newline? s

def skipLines? : Nat → List Char → Option (List Char)
  | 0, s => some s
  | fuel + 1, s =>
    match skipSpace s with
    | '#' :: s => (lineEnd? ('#' :: s)).bind (skipLines? fuel)
    | s =>
      match newline? s with
      | some s => skipLines? fuel s
      | none => some s

def skipBlank? (s : List Char) : Option (List Char) := skipLines? (s.length + 1) s

def skipSpaceLines : List Char → List Char
  | '\r' :: '\n' :: s => skipSpaceLines s
  | c :: s => if isSpace c || c == '\n' then skipSpaceLines s else c :: s
  | [] => []

def codePoint? (count : Nat) (s : List Char) : Option (Char × List Char) :=
  let digits := s.take count
  let n := Number.ofDigits 16 digits
  if digits.length = count ∧ digits.all (fun c => (Number.hexValue? c).isSome) ∧
      Nat.isValidChar n then
    some (Char.ofNat n, s.drop count)
  else none

def escape? : List Char → Option (Char × List Char)
  | 'b' :: s => some ('\x08', s)
  | 't' :: s => some ('\t', s)
  | 'n' :: s => some ('\n', s)
  | 'f' :: s => some ('\x0c', s)
  | 'r' :: s => some ('\r', s)
  | '"' :: s => some ('"', s)
  | '\\' :: s => some ('\\', s)
  | 'u' :: s => codePoint? 4 s
  | 'U' :: s => codePoint? 8 s
  | _ => none

def stringBody? (quote : Char) : Nat → List Char → Option (List Char × List Char)
  | 0, _ => none
  | _, [] => none
  | fuel + 1, c :: s =>
    if c = quote then some ([], s)
    else if c = '\\' ∧ quote = '"' then do
      let (c, s) ← escape? s
      let (cs, s) ← stringBody? quote fuel s
      return (c :: cs, s)
    else if isPrintable c then (stringBody? quote fuel s).map fun r => (c :: r.1, r.2)
    else none

/-- A backslash at the end of a line joins it to the next text; what follows the join. -/
def join? (s : List Char) : Option (List Char) := (newline? (skipSpace s)).map skipSpaceLines

/-- The characters up to three closing quotes, read in at most `fuel` steps. Up to two more quotes
before those three belong to the string. -/
def blockBody? (quote : Char) : Nat → List Char → Option (List Char × List Char)
  | 0, _ => none
  | _, [] => none
  | fuel + 1, c :: s =>
    if c = quote then
      let run := ((c :: s).takeWhile (· == quote)).length
      if run < 3 then (blockBody? quote fuel s).map fun r => (c :: r.1, r.2)
      else
        let kept := min (run - 3) 2
        some (List.replicate kept quote, s.drop (kept + 2))
    else if c = '\\' ∧ quote = '"' then
      match join? s with
      | some s => blockBody? quote fuel s
      | none => do
        let (c, s) ← escape? s
        let (cs, s) ← blockBody? quote fuel s
        return (c :: cs, s)
    else
      match newline? (c :: s) with
      | some s => (blockBody? quote fuel s).map fun r => ('\n' :: r.1, r.2)
      | none =>
        if isPrintable c then (blockBody? quote fuel s).map fun r => (c :: r.1, r.2) else none

/-- A string whose first quote is `quote`, which has been read. A line end right after three opening
quotes does not belong to the string. -/
def string? (quote : Char) (s : List Char) : Option (String × List Char) :=
  let body := match s with
    | c :: d :: t =>
      if c = quote ∧ d = quote then
        let t := (newline? t).getD t
        blockBody? quote (t.length + 1) t
      else stringBody? quote (s.length + 1) s
    | s => stringBody? quote (s.length + 1) s
  body.map fun r => (String.ofList r.1, r.2)

def isKeyChar (c : Char) : Bool := c.isAlphanum || c == '_' || c == '-'

def name? : List Char → Option (String × List Char)
  | c :: s =>
    if c = '"' ∨ c = '\'' then
      (stringBody? c (s.length + 1) s).map fun r => (String.ofList r.1, r.2)
    else
      match (c :: s).span isKeyChar with
      | ([], _) => none
      | (cs, rest) => some (String.ofList cs, rest)
  | [] => none

def names? : Nat → List Char → Option (List String × List Char)
  | 0, _ => none
  | fuel + 1, s => do
    let (n, s) ← name? (skipSpace s)
    match skipSpace s with
    | '.' :: s =>
      let (ns, s) ← names? fuel s
      return (n :: ns, s)
    | s => return ([n], s)

/-- A key of at most 79 names: those before the last one, and the last. -/
def key? (s : List Char) : Option ((List String × String) × List Char) := do
  let (ns, s) ← names? 79 s
  let last ← ns.getLast?
  return ((ns.dropLast, last), s)

end GraphScribe.Toml
