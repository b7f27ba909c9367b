import GraphScribe.Diagram.Basic

/-!
# Ranks

The rank of a box is one more than the highest rank of its predecessors. Boxes are taken in
topological order; those on or behind a cycle, which that order never reaches, follow in the order
of their indices. Loops are ignored.
-/
namespace GraphScribe.Ranks

/-- Counts one link less into each of the targets, `self` excepted. Returns those that have none
left and the new counts. -/
def countDown (self : Nat) : List Nat → List Nat → List Nat × List Nat
  | [], pending => ([], pending)
  | v :: vs, pending =>
    if v = self then countDown self vs pending
    else
      match pending[v]? with
      | some 1 =>
        let r := countDown self vs (pending.set v 0)
        (v :: r.1, r.2)
      | some (n + 2) => countDown self vs (pending.set v (n + 1))
      | _ => countDown self vs pending

def linkCount : List Nat → Nat
  | [] => 0
  | n :: ns => n + linkCount ns

theorem linkCount_set {pending : List Nat} {i n m : Nat} (h : pending[i]? = some n) :
    linkCount (pending.set i m) + n = linkCount pending + m := by
  induction pending generalizing i with
  | nil => simp at h
  | cons x xs ih =>
    cases i with
    | zero =>
      simp only [List.getElem?_cons_zero, Option.some.injEq] at h
      subst h
      simp only [List.set_cons_zero, linkCount]
      omega
    | succ i =>
      simp only [List.getElem?_cons_succ] at h
      have := ih h
      simp only [List.set_cons_succ, linkCount]
      omega

theorem linkCount_countDown (self : Nat) (vs pending : List Nat) :
    (countDown self vs pending).1.length + linkCount (countDown self vs pending).2 ≤
      linkCount pending := by
  induction vs generalizing pending with
  | nil => simp [countDown]
  | cons v vs ih =>
    simp only [countDown]
    split
    · exact ih pending
    · split
      · rename_i h
        have := ih (pending.set v 0)
        have := linkCount_set (m := 0) h
        simp only [List.length_cons]
        omega
      · rename_i n h
        have := ih (pending.set v (n + 1))
        have := linkCount_set (m := n + 1) h
        omega
      · exact ih pending

/-- Takes the boxes of the queue and, after them, those that no untaken box links to any more. -/
def release (successors : Nat → List Nat) : List Nat → List Nat → List Nat
  | [], _ => []
  | v :: queue, pending =>
    let r := countDown v (successors v) pending
    v :: release successors (queue ++ r.1) r.2
termination_by queue pending => queue.length + linkCount pending
decreasing_by
  have := linkCount_countDown v (successors v) pending
  simp only [List.length_append, List.length_cons]
  omega

def raise (successors : Nat → List Nat) (ranks : List Nat) (v : Nat) : List Nat :=
  let rank := ranks.getD v 0
  ((successors v).filter (· != v)).foldl (fun rs w => rs.modify w (max · (rank + 1))) ranks

end GraphScribe.Ranks

namespace GraphScribe.Diagram

variable {α : Type}

def indegrees (d : Diagram α) : List Nat :=
  d.indices.map fun v => ((d.predecessors v).filter (· != v)).length

def rankOrder (d : Diagram α) : List Nat :=
  let pending := d.indegrees
  let free := d.indices.filter fun v => pending.getD v 0 == 0
  let released := Ranks.release d.successors free pending
  released ++ d.indices.filter fun v => !released.contains v

def ranks (d : Diagram α) : List Nat :=
  d.rankOrder.foldl (Ranks.raise d.successors) (List.replicate d.count 0)

end GraphScribe.Diagram
