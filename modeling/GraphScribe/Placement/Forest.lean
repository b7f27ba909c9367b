import GraphScribe.Diagram.Basic

/-!
# Spanning forests

A breadth-first forest over the boxes of a diagram. It grows along links, first those that leave a
box and then those that enter it, so a box that can only be reached against a link hangs below its
neighbour all the same. Each tree starts at a root of the diagram, if it is not in a tree yet, or,
after the roots, at the first box that is in none.
-/
namespace GraphScribe

structure Seat where
  node : Nat
  parent : Option Nat
  depth : Nat
  deriving DecidableEq, Repr

/-- The seats of a forest, every parent before what hangs from it. -/
abbrev Forest := List Seat

namespace Forest

def enrol (parent depth : Nat) : List Nat → List Nat → List Seat × List Nat
  | [], unseen => ([], unseen)
  | c :: cs, unseen =>
    if unseen.contains c then
      let r := enrol parent depth cs (unseen.erase c)
      (⟨c, some parent, depth⟩ :: r.1, r.2)
    else enrol parent depth cs unseen

theorem enrol_length (parent depth : Nat) (cs unseen : List Nat) :
    (enrol parent depth cs unseen).1.length + (enrol parent depth cs unseen).2.length =
      unseen.length := by
  induction cs generalizing unseen with
  | nil => simp [enrol]
  | cons c cs ih =>
    simp only [enrol]
    split
    · rename_i h
      have hm : c ∈ unseen := by simpa using h
      have hl := List.length_erase_of_mem hm
      have hp := List.length_pos_of_mem hm
      have := ih (unseen.erase c)
      simp only [List.length_cons]
      omega
    · exact ih unseen

/-- Grows trees from the queue over the boxes in `unseen`. Returns the seats in the order in which
they leave the queue and the boxes that are left. -/
def grow (next : Nat → List Nat) : List Seat → List Nat → List Seat × List Nat
  | [], unseen => ([], unseen)
  | seat :: queue, unseen =>
    let r := enrol seat.node (seat.depth + 1) (next seat.node) unseen
    let more := grow next (queue ++ r.1) r.2
    (seat :: more.1, more.2)
termination_by queue unseen => queue.length + unseen.length
decreasing_by
  have := enrol_length seat.node (seat.depth + 1) (next seat.node) unseen
  simp only [List.length_append, List.length_cons]
  omega

def plant (next : Nat → List Nat) : List Nat → List Nat → Forest
  | [], _ => []
  | s :: ss, unseen =>
    if unseen.contains s then
      let tree := grow next [⟨s, none, 0⟩] (unseen.erase s)
      tree.1 ++ plant next ss tree.2
    else plant next ss unseen

def roots (f : Forest) : List Nat := (f.filter (·.parent.isNone)).map (·.node)

def children (f : Forest) (v : Nat) : List Nat :=
  (f.filter (·.parent == some v)).map (·.node)

def depth (f : Forest) (v : Nat) : Nat := ((f.find? (·.node == v)).map (·.depth)).getD 0

def maxDepth (f : Forest) : Nat := (f.map (·.depth)).foldl max 0

end Forest

namespace Diagram

variable {α : Type}

/-- The boxes linked with `v`, those it links to first. -/
def reachable (d : Diagram α) (v : Nat) : List Nat := d.successors v ++ d.predecessors v

def forest (d : Diagram α) : Forest :=
  .plant d.reachable (d.roots ++ d.indices) d.indices

end Diagram

end GraphScribe
