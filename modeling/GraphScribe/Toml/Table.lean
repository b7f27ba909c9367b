import GraphScribe.Json.Basic

/-!
# Building tables

The statements of a TOML document build up one table. A table may be opened by its header once; one
that exists only because a longer header or a dotted key passes through it stays open, but each of
the two only for its own kind. Nothing can be added to a value that has been given in full.

The result is kept as a JSON value.
-/
namespace GraphScribe.Toml

inductive Origin where
  | header
  /-- On the way to a table with a longer header. -/
  | passage
  | dotted
  deriving DecidableEq, Repr

inductive Item where
  | value (v : Json)
  | table (origin : Origin) (entries : List (String × Item))
  /-- An array of tables, of which only the last can grow. -/
  | tables (closed : List Json) (last : List (String × Item))

abbrev Entries := List (String × Item)

mutual
def Item.toJson : Item → Json
  | .value v => v
  | .table _ entries => .obj (members entries)
  | .tables closed last => .arr (closed ++ [.obj (members last)])

def members : List (String × Item) → List (String × Json)
  | [] => []
  | (k, i) :: es => (k, i.toJson) :: members es
end

namespace Entries

def alter (key : String) (change : Option Item → Option Item) : Entries → Option Entries
  | [] => (change none).map fun i => [(key, i)]
  | (k, i) :: es =>
    if k = key then (change (some i)).map fun j => (k, j) :: es
    else (alter key change es).map ((k, i) :: ·)

def atHeader (change : Entries → Option Entries) : List String → Entries → Option Entries
  | [], es => change es
  | k :: path, es =>
    alter k (fun
      | none => (atHeader change path []).map (.table .passage)
      | some (.value _) => none
      | some (.table origin inner) => (atHeader change path inner).map (.table origin)
      | some (.tables closed last) => (atHeader change path last).map (.tables closed)) es

def openTable (key : String) : Entries → Option Entries :=
  alter key fun
    | none => some (.table .header [])
    | some (.table .passage inner) => some (.table .header inner)
    | some _ => none

def openElement (key : String) : Entries → Option Entries :=
  alter key fun
    | none => some (.tables [] [])
    | some (.tables closed last) => some (.tables (closed ++ [.obj (members last)]) [])
    | some _ => none

def put (key : String) (v : Json) : Entries → Option Entries :=
  alter key fun
    | none => some (.value v)
    | some _ => none

/-- Gives a value to a dotted key. Where the way ends, there has to be a table that was made by
dotted keys. -/
def putDotted (key : String) (v : Json) : List String → Entries → Option Entries
  | [], es => put key v es
  | k :: path, es =>
    let mayEnd (origin : Origin) : Bool := !path.isEmpty || origin == .dotted
    alter k (fun
      | none => (putDotted key v path []).map (.table .dotted)
      | some (.table origin inner) =>
        if origin = .header ∨ !mayEnd origin then none
        else (putDotted key v path inner).map (.table origin)
      | some (.tables closed last) =>
        if mayEnd .header then (putDotted key v path last).map (.tables closed) else none
      | some (.value _) => none) es

end Entries

inductive Statement where
  | table (path : List String) (key : String)
  | element (path : List String) (key : String)
  | entry (path : List String) (key : String) (v : Json)

structure Draft where
  current : List String := []
  entries : Entries := []

def Draft.add (d : Draft) : Statement → Option Draft
  | .table path key =>
    (Entries.atHeader (Entries.openTable key) path d.entries).map (⟨path ++ [key], ·⟩)
  | .element path key =>
    (Entries.atHeader (Entries.openElement key) path d.entries).map (⟨path ++ [key], ·⟩)
  | .entry path key v =>
    (Entries.atHeader (Entries.putDotted key v path) d.current d.entries).map (⟨d.current, ·⟩)

def build? (statements : List Statement) : Option Json :=
  (statements.foldlM Draft.add {}).map fun d => .obj (members d.entries)

end GraphScribe.Toml
