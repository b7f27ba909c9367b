import GraphScribe.Config.KeyPath
import GraphScribe.Json.Basic

/-!
# Layers of settings

Settings are a table, kept as a JSON object in which no key occurs twice. A later layer is put over
an earlier one key by key; what is not a table on both sides is replaced. Keys are compared without
regard to case.
-/
namespace GraphScribe.Config

/-- The form in which keys are kept. The Kelvin sign is the one character beyond ASCII whose small
form is an ASCII letter. -/
def foldCase (s : String) : String :=
  String.ofList (s.toList.map fun c => if c = '\u212a' then 'k' else c.toLower)

def valueOf? (key : String) : Json → Option Json
  | .obj members => members.lookup key
  | _ => none

def assign (key : String) (v : Json) : List (String × Json) → List (String × Json)
  | [] => [(key, v)]
  | (k, w) :: ms => if k = key then (k, v) :: ms else (k, w) :: assign key v ms

def setEntry (key : String) (v : Json) : Json → Json
  | .obj members => .obj (assign key v members)
  | _ => .obj [(key, v)]

mutual
def merge (old : Option Json) : Json → Json
  | .obj members => mergeMembers (old.getD (.obj [])) members
  | v => v

def mergeMembers (old : Json) : List (String × Json) → Json
  | [] => old
  | (k, v) :: ms =>
    let key := foldCase k
    mergeMembers (setEntry key (merge (valueOf? key old) v) old) ms
end

def position (index : Int) (length : Nat) : Nat :=
  if index < 0 then (length + index).toNat else index.toNat

def alterElement (index : Int) (change : Json → Json) (v : Json) : Json :=
  let elements := match v with
    | .arr vs => vs
    | _ => []
  let i := position index elements.length
  let filled := elements ++ List.replicate (i + 1 - elements.length) .null
  .arr (filled.modify i change)

/-- The value `old` with the setting changed that the steps lead to; tables and lists on the way are
made where there are none. -/
def setAt (v : Json) : List Step → Option Json → Json
  | [], old => merge old v
  | .key k :: steps, old =>
    let key := foldCase k
    let old := old.getD .null
    setEntry key (setAt v steps (valueOf? key old)) old
  | .element i :: steps, old =>
    match steps with
    | [] => alterElement i (fun _ => v) (old.getD .null)
    | _ => alterElement i (fun w => setAt v steps (some w)) (old.getD .null)

def override (path : KeyPath) (v : Json) (settings : Json) : Json :=
  setAt v (.key path.first :: path.steps) (some settings)

/-- Puts the settings of a file over others. A key at the top of a file that reads as a path leads
to the setting at its end. -/
def overlay (file settings : Json) : Json :=
  match file with
  | .obj members =>
    members.foldl
      (fun settings (k, v) =>
        match KeyPath.parse? k with
        | some path => override path v settings
        | none => mergeMembers settings [(k, v)]) settings
  | _ => settings

end GraphScribe.Config
