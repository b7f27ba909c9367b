import GraphScribe.Toml.Number
import GraphScribe.Toml.Table

/-!
# Reading TOML

A document is a sequence of statements, one a line. Arrays and inline tables may be nested 79 deep.
-/
namespace GraphScribe.Toml

def word? (word : String) (v : Json) (s : List Char) : Option (Json × List Char) :=
  if word.toList.isPrefixOf s then some (v, s.drop word.length) else none

/-- Elements up to the closing bracket, each read by `value?`. A comma may follow the last one. -/
def elements? (value? : List Char → Option (Json × List Char)) :
    Nat → List Char → Option (List Json × List Char)
  | 0, _ => none
  | fuel + 1, s => do
    match ← skipBlank? s with
    | ']' :: s => return ([], s)
    | s =>
      let (v, s) ← value? s
      match ← skipBlank? s with
      | ',' :: s =>
        let (vs, s) ← elements? value? fuel s
        return (v :: vs, s)
      | ']' :: s => return ([v], s)
      | _ => none

def assignment? (value? : List Char → Option (Json × List Char)) (s : List Char) :
    Option (Statement × List Char) := do
  let ((path, key), s) ← key? s
  let (v, s) ← value? (skipSpace (← char? '=' s))
  return (.entry path key v, s)

def fields? (value? : List Char → Option (Json × List Char)) :
    Nat → List Char → Option (List Statement × List Char)
  | 0, _ => none
  | fuel + 1, s => do
    let (e, s) ← assignment? value? s
    match skipSpace s with
    | ',' :: s =>
      let (es, s) ← fields? value? fuel s
      return (e :: es, s)
    | '\x7d' :: s => return ([e], s)
    | _ => none

def value? (levels : Nat) (s : List Char) : Option (Json × List Char) :=
  match s with
  | '"' :: s => (string? '"' s).map fun r => (.str r.1, r.2)
  | '\'' :: s => (string? '\'' s).map fun r => (.str r.1, r.2)
  | 't' :: _ => word? "true" (.bool true) s
  | 'f' :: _ => word? "false" (.bool false) s
  | '[' :: s =>
    match levels with
    | 0 => none
    | n + 1 => (elements? (value? n) (s.length + 1) s).map fun r => (.arr r.1, r.2)
  | '\x7b' :: s =>
    match levels with
    | 0 => none
    | n + 1 =>
      match skipSpace s with
      | '\x7d' :: s => some (.obj [], s)
      | s => do
        let (es, s) ← fields? (value? n) (s.length + 1) s
        return (← build? es, s)
  | s => (moment? s).orElse fun _ => number? s

def statement? (s : List Char) : Option (Statement × List Char) := do
  let (statement, s) ← match s with
    | '[' :: '[' :: s => do
      let ((path, key), s) ← key? s
      return (Statement.element path key, ← char? ']' (← char? ']' s))
    | '[' :: s => do
      let ((path, key), s) ← key? s
      return (Statement.table path key, ← char? ']' s)
    | s => assignment? (value? 79) s
  return (statement, ← lineEnd? s)

def statements? : Nat → List Char → Option (List Statement)
  | 0, _ => none
  | fuel + 1, s => do
    match ← skipBlank? s with
    | [] => return []
    | s =>
      let (statement, s) ← statement? s
      return statement :: (← statements? fuel s)

/-- The table that a document describes. A byte order mark at its front is skipped. -/
def parse? (text : String) : Option Json := do
  let s := match text.toList with
    | '\ufeff' :: s => s
    | s => s
  build? (← statements? (s.length + 1) s)

end GraphScribe.Toml
