/-!
# Frames

Each connected component of a graph gets a frame, the outline of its drawing: the shortest of the
cycles that a depth-first search closes, or, in a tree, its leaves. A cycle is closed where a box on
the current path of the search, not the one just before, is met again; it runs from the end of the
path back to that box.
-/
namespace GraphScribe

structure Component where
  frame : List Nat
  interior : List Nat
  deriving DecidableEq, Repr

def Component.nodes (c : Component) : List Nat := c.frame ++ c.interior

namespace Component

/-- What a search has found: the boxes not met, those met in reverse order, the shortest cycle. -/
structure Search where
  unseen : List Nat
  met : List Nat
  cycle : Option (List Nat)
  deriving DecidableEq, Repr

def backTo (v : Nat) : List Nat → List Nat
  | [] => []
  | w :: ws => if w = v then [w] else w :: backTo v ws

/-- The shorter cycle, the older of two that are equally long. -/
def shorter (old : Option (List Nat)) (new : List Nat) : Option (List Nat) :=
  match old with
  | none => some new
  | some c => if new.length < c.length then some new else some c

def closed? (path : List Nat) (v : Nat) : Option (List Nat) :=
  match path with
  | _ :: parent :: rest =>
    if v ≠ parent ∧ v ∈ rest then some (backTo v path) else none
  | _ => none

/-- The path of a search from its end back to its start, each box with the neighbours that are still
to be looked at. -/
abbrev Path := List (Nat × List Nat)

def Path.boxes (p : Path) : List Nat := p.map (·.1)

def Path.remaining : Path → Nat
  | [] => 0
  | (_, ws) :: path => ws.length + 1 + remaining path

def search (adjacent : Nat → List Nat) : Path → Search → Search
  | [], s => s
  | (_, []) :: path, s => search adjacent path s
  | (v, w :: ws) :: path, s =>
    if s.unseen.contains w then
      search adjacent ((w, adjacent w) :: (v, ws) :: path)
        ⟨s.unseen.erase w, w :: s.met, s.cycle⟩
    else
      let cycle := match closed? (v :: Path.boxes path) w with
        | some c => shorter s.cycle c
        | none => s.cycle
      search adjacent ((v, ws) :: path) ⟨s.unseen, s.met, cycle⟩
termination_by path s => (s.unseen.length, Path.remaining path)
decreasing_by
  · exact Prod.Lex.right _ (by simp [Path.remaining])
  · rename_i hw
    have hm : w ∈ s.unseen := by simpa using hw
    have := List.length_erase_of_mem hm
    have := List.length_pos_of_mem hm
    exact Prod.Lex.left _ _ (by omega)
  · exact Prod.Lex.right _ (by simp [Path.remaining])

def ofSearch (adjacent : Nat → List Nat) (s : Search) : Component :=
  let nodes := s.met.reverse
  let frame := match s.cycle with
    | some c => c
    | none => nodes.filter fun v => (adjacent v).length ≤ 1
  ⟨frame, nodes.filter fun v => !frame.contains v⟩

def collect (adjacent : Nat → List Nat) : List Nat → List Nat → List Component
  | [], _ => []
  | v :: vs, unseen =>
    if unseen.contains v then
      let s := search adjacent [(v, adjacent v)] ⟨unseen.erase v, [v], none⟩
      ofSearch adjacent s :: collect adjacent vs s.unseen
    else collect adjacent vs unseen

def all (adjacent : Nat → List Nat) (count : Nat) : List Component :=
  collect adjacent (List.range count) (List.range count)

end Component

end GraphScribe
