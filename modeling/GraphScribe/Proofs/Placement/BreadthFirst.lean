import GraphScribe.Placement.Forest
import GraphScribe.Proofs.Diagram.Links
import Mathlib.Combinatorics.SimpleGraph.Metric

/-! # Breadth-first forests

While a tree grows, the queue holds boxes of at most two depths, those of the lower one first, and
whatever is adjacent to a box that has left it is seated. So every box is seated at its distance
from the root, and a tree ends with the connected component of its root. -/
namespace GraphScribe.Forest

structure Enrolled (parent depth : Nat) (cs unseen : List Nat) (r : List Seat × List Nat) :
    Prop where
  perm : (r.1.map (·.node) ++ r.2).Perm unseen
  seated : ∀ s ∈ r.1, s.parent = some parent ∧ s.depth = depth ∧ s.node ∈ cs
  left : ∀ c ∈ cs, c ∉ r.2

theorem seat_of_mem_enrol {parent depth : Nat} {cs unseen : List Nat} {s : Seat}
    (hs : s ∈ (enrol parent depth cs unseen).1) :
    s.parent = some parent ∧ s.depth = depth ∧ s.node ∈ cs := by
  induction cs generalizing unseen with
  | nil => cases hs
  | cons c cs ih =>
    rw [enrol] at hs
    by_cases hc : unseen.contains c = true
    · rw [if_pos hc] at hs
      rcases List.mem_cons.mp hs with rfl | hs
      · exact ⟨rfl, rfl, List.mem_cons_self⟩
      · obtain ⟨hparent, hdepth, hnode⟩ := ih hs
        exact ⟨hparent, hdepth, List.mem_cons_of_mem _ hnode⟩
    · rw [if_neg hc] at hs
      obtain ⟨hparent, hdepth, hnode⟩ := ih hs
      exact ⟨hparent, hdepth, List.mem_cons_of_mem _ hnode⟩

theorem enrolled (parent depth : Nat) (cs : List Nat) {unseen : List Nat} (hu : unseen.Nodup) :
    Enrolled parent depth cs unseen (enrol parent depth cs unseen) := by
  induction cs generalizing unseen with
  | nil =>
    constructor
    · exact .refl _
    · exact fun s hs => seat_of_mem_enrol hs
    · simp
  | cons c cs ih =>
    by_cases hc : c ∈ unseen
    · have hrest := ih (hu.erase c)
      refine ⟨?_, fun s hs => seat_of_mem_enrol hs, ?_⟩ <;> rw [enrol, if_pos (by simpa using hc)]
      · exact (hrest.perm.cons c).trans (List.perm_cons_erase hc).symm
      · intro w hw hleft
        rcases List.mem_cons.mp hw with rfl | hw
        · exact hu.not_mem_erase (hrest.perm.mem_iff.mp (List.mem_append_right _ hleft))
        · exact hrest.left w hw hleft
    · have hrest := ih hu
      refine ⟨?_, fun s hs => seat_of_mem_enrol hs, ?_⟩ <;> rw [enrol, if_neg (by simpa using hc)]
      · exact hrest.perm
      · intro w hw hleft
        rcases List.mem_cons.mp hw with rfl | hw
        · exact hc (hrest.perm.mem_iff.mp (List.mem_append_right _ hleft))
        · exact hrest.left w hw hleft

def order (f : Forest) : List Nat := f.map (·.node)

/-- Looking for the next boxes finds the neighbours, and perhaps the box itself. -/
structure Explores (next : Nat → List Nat) (G : SimpleGraph Nat) : Prop where
  sound : ∀ v w, w ∈ next v → w = v ∨ G.Adj v w
  complete : ∀ v w, G.Adj v w → w ∈ next v

/-- A box hangs from a neighbour that comes before it. -/
def ParentsFirst (G : SimpleGraph Nat) (f : Forest) : Prop :=
  ∀ before s after, f = before ++ s :: after → ∀ p, s.parent = some p →
    p ∈ order before ∧ G.Adj p s.node

/-- What holds while the tree of `r` grows over the boxes `vs`: `done` has left the queue. -/
structure Growing (G : SimpleGraph Nat) (r : Nat) (vs : List Nat) (done queue : List Seat)
    (unseen : List Nat) : Prop where
  perm : (order (done ++ queue) ++ unseen).Perm vs
  root : ⟨r, none, 0⟩ ∈ done ++ queue
  depth : ∀ s ∈ done ++ queue, G.Reachable r s.node ∧ s.depth = G.dist r s.node
  lone : ∀ s ∈ done ++ queue, s.parent = none → s.node = r
  parents : ParentsFirst G (done ++ queue)
  closed : ∀ s ∈ done, ∀ w, G.Adj s.node w → w ∈ order (done ++ queue)
  sorted : queue.Pairwise fun s t => s.depth ≤ t.depth
  spread : ∀ s ∈ queue, ∀ t ∈ queue, t.depth ≤ s.depth + 1

variable {G : SimpleGraph Nat} {next : Nat → List Nat}

theorem mem_order {f : Forest} {v : Nat} : v ∈ f.order ↔ ∃ s ∈ f, s.node = v := List.mem_map

theorem order_append (f g : Forest) : order (f ++ g) = f.order ++ g.order := List.map_append

theorem ParentsFirst.append {f g : Forest} (hf : ParentsFirst G f)
    (hg : ∀ before s after, g = before ++ s :: after → ∀ p, s.parent = some p →
      p ∈ order (f ++ before) ∧ G.Adj p s.node) : ParentsFirst G (f ++ g) := by
  intro before s after hsplit p hp
  rcases List.append_eq_append_iff.mp hsplit with ⟨middle, rfl, hsplit'⟩ | ⟨middle, hsplit', hrest⟩
  · exact hg middle s after hsplit' p hp
  · cases middle with
    | nil =>
      rw [List.append_nil] at hsplit'
      have hhead := hg [] s after hrest.symm p hp
      rwa [List.append_nil, hsplit'] at hhead
    | cons t middle =>
      obtain ⟨rfl, -⟩ := List.cons.inj hrest
      exact hf before s middle hsplit' p hp

theorem exists_nearer {r x n : Nat} (hx : G.Reachable r x) (hn : G.dist r x = n + 1) :
    ∃ y, G.Adj y x ∧ G.Reachable r y ∧ G.dist r y = n := by
  obtain ⟨p, hp⟩ := hx.exists_walk_length_eq_dist
  have hnil : ¬p.Nil := by
    rw [← SimpleGraph.Walk.length_eq_zero_iff]
    omega
  refine ⟨p.penultimate, p.adj_penultimate hnil, p.dropLast.reachable, ?_⟩
  have hle := SimpleGraph.dist_le p.dropLast
  have hstep := (p.adj_penultimate hnil).diff_dist_adj (u := r)
  have hlength := p.length_dropLast
  omega

variable {r : Nat} {vs unseen : List Nat} {done queue : List Seat} {s : Seat}

theorem Growing.near (h : Growing G r vs done (s :: queue) unseen) {x : Nat}
    (hx : G.Reachable r x) (hle : G.dist r x ≤ s.depth) : x ∈ order (done ++ s :: queue) := by
  generalize hn : G.dist r x = n at hle
  induction n generalizing x with
  | zero =>
    have heq : r = x := hx.dist_eq_zero_iff.mp hn
    exact heq ▸ List.mem_map_of_mem h.root
  | succ n ih =>
    obtain ⟨y, hadj, hy, hdist⟩ := exists_nearer hx hn
    obtain ⟨t, ht, rfl⟩ := List.mem_map.mp (ih hy hdist (by omega))
    have hdepth := (h.depth t ht).2
    rcases List.mem_append.mp ht with hdone | hqueue
    · exact h.closed t hdone x hadj
    · -- what is still in the queue is not nearer than its first
      have hfirst : s.depth ≤ t.depth := by
        rcases List.mem_cons.mp hqueue with rfl | hlater
        · exact le_rfl
        · exact (List.pairwise_cons.mp h.sorted).1 t hlater
      omega

theorem Growing.apart (hvs : vs.Nodup) (h : Growing G r vs done queue unseen) :
    ∀ v ∈ order (done ++ queue), v ∉ unseen :=
  List.disjoint_of_nodup_append (h.perm.nodup_iff.mpr hvs)

section Step

variable {new : List Seat × List Nat}

theorem Growing.joins (hG : Explores next G) (hvs : vs.Nodup)
    (h : Growing G r vs done (s :: queue) unseen)
    (hnew : Enrolled s.node (s.depth + 1) (next s.node) unseen new) {t : Seat} (ht : t ∈ new.1) :
    t.node ∈ unseen ∧ G.Adj s.node t.node := by
  have hs : s ∈ done ++ s :: queue := List.mem_append_right _ List.mem_cons_self
  have hfresh : t.node ∈ unseen :=
    hnew.perm.mem_iff.mp (List.mem_append_left _ (List.mem_map_of_mem ht))
  refine ⟨hfresh, ?_⟩
  rcases hG.sound _ _ (hnew.seated t ht).2.2 with heq | hadj
  · exact absurd hfresh (heq ▸ h.apart hvs s.node (List.mem_map_of_mem hs))
  · exact hadj

/-- A box takes its seat at its distance from the root: were it nearer, it would have had one. -/
theorem Growing.depth_new (hG : Explores next G) (hvs : vs.Nodup)
    (h : Growing G r vs done (s :: queue) unseen)
    (hnew : Enrolled s.node (s.depth + 1) (next s.node) unseen new) {t : Seat} (ht : t ∈ new.1) :
    G.Reachable r t.node ∧ t.depth = G.dist r t.node := by
  obtain ⟨hreach, hdepth⟩ := h.depth s (List.mem_append_right _ List.mem_cons_self)
  obtain ⟨hfresh, hadj⟩ := h.joins hG hvs hnew ht
  have hreach' : G.Reachable r t.node := hreach.trans hadj.reachable
  refine ⟨hreach', ?_⟩
  have hfar : s.depth < G.dist r t.node := by
    by_contra hle
    exact h.apart hvs _ (h.near hreach' (not_lt.mp hle)) hfresh
  have hstep := hadj.diff_dist_adj (u := r)
  have hseat := (hnew.seated t ht).2.1
  omega

theorem Growing.closed_new (hG : Explores next G) (hclosed : Closed G vs)
    (h : Growing G r vs done (s :: queue) unseen)
    (hnew : Enrolled s.node (s.depth + 1) (next s.node) unseen new) {w : Nat}
    (hw : G.Adj s.node w) : w ∈ order (done ++ s :: queue) ++ order new.1 := by
  have hs : s ∈ done ++ s :: queue := List.mem_append_right _ List.mem_cons_self
  have hmem := h.perm.mem_iff.mp (List.mem_append_left _ (List.mem_map_of_mem hs))
  rcases List.mem_append.mp (h.perm.mem_iff.mpr (hclosed _ hmem w hw)) with hseated | hleft
  · exact List.mem_append_left _ hseated
  · rcases List.mem_append.mp (hnew.perm.mem_iff.mpr hleft) with hseated | hleft
    · exact List.mem_append_right _ hseated
    · exact absurd hleft (hnew.left w (hG.complete _ _ hw))

/-- The first of the queue leaves it, and its neighbours that have no seat yet take one. -/
theorem Growing.step (hG : Explores next G) (hvs : vs.Nodup) (hclosed : Closed G vs)
    (h : Growing G r vs done (s :: queue) unseen)
    (hnew : Enrolled s.node (s.depth + 1) (next s.node) unseen new) :
    Growing G r vs (done ++ [s]) (queue ++ new.1) new.2 := by
  have hs : s ∈ done ++ s :: queue := List.mem_append_right _ List.mem_cons_self
  have hlist : done ++ [s] ++ (queue ++ new.1) = done ++ s :: queue ++ new.1 := by simp
  obtain ⟨hfirst, hsorted⟩ := List.pairwise_cons.mp h.sorted
  constructor
  · rw [hlist, order_append, List.append_assoc]
    exact (hnew.perm.append_left _).trans h.perm
  · rw [hlist]
    exact List.mem_append_left _ h.root
  · rw [hlist]
    intro t ht
    rcases List.mem_append.mp ht with hold | ht
    · exact h.depth t hold
    · exact h.depth_new hG hvs hnew ht
  · rw [hlist]
    intro t ht hroot
    rcases List.mem_append.mp ht with hold | ht
    · exact h.lone t hold hroot
    · rw [(hnew.seated t ht).1] at hroot
      cases hroot
  · rw [hlist]
    apply h.parents.append
    intro before t after hsplit p hp
    have ht : t ∈ new.1 := hsplit ▸ List.mem_append_right _ List.mem_cons_self
    rw [(hnew.seated t ht).1] at hp
    obtain rfl := Option.some.inj hp
    rw [order_append]
    exact ⟨List.mem_append_left _ (List.mem_map_of_mem hs), (h.joins hG hvs hnew ht).2⟩
  · rw [hlist, order_append]
    intro t ht w hw
    rcases List.mem_append.mp ht with hold | ht
    · exact List.mem_append_left _ (h.closed t hold w hw)
    · obtain rfl := List.mem_singleton.mp ht
      exact h.closed_new hG hclosed hnew hw
  · rw [List.pairwise_append]
    refine ⟨hsorted, ?_, ?_⟩
    · apply List.pairwise_of_forall_mem_list
      intro t ht u hu
      rw [(hnew.seated t ht).2.1, (hnew.seated u hu).2.1]
    · intro t ht u hu
      rw [(hnew.seated u hu).2.1]
      exact h.spread s List.mem_cons_self t (List.mem_cons_of_mem _ ht)
  · have hbounds : ∀ t ∈ queue ++ new.1, s.depth ≤ t.depth ∧ t.depth ≤ s.depth + 1 := by
      intro t ht
      rcases List.mem_append.mp ht with ht | ht
      · exact ⟨hfirst t ht, h.spread s List.mem_cons_self t (List.mem_cons_of_mem _ ht)⟩
      · rw [(hnew.seated t ht).2.1]
        omega
    intro t ht u hu
    have ht' := hbounds t ht
    have hu' := hbounds u hu
    omega

end Step

theorem Growing.run (hG : Explores next G) (hvs : vs.Nodup) (hclosed : Closed G vs)
    (h : Growing G r vs done queue unseen) :
    Growing G r vs (done ++ (grow next queue unseen).1) [] (grow next queue unseen).2 := by
  fun_induction grow next queue unseen generalizing done with
  | case1 unseen =>
    rwa [List.append_nil]
  | case2 s queue unseen new more =>
    rename_i ih
    have hunseen : unseen.Nodup :=
      ((h.perm.nodup_iff.mpr hvs).sublist (List.sublist_append_right _ _))
    have hrest := ih (h.step hG hvs hclosed (enrolled _ _ _ hunseen))
    rwa [List.append_assoc] at hrest

theorem growing_first {r : Nat} (hr : r ∈ vs) :
    Growing G r vs [] [⟨r, none, 0⟩] (vs.erase r) := by
  constructor
  · exact (List.perm_cons_erase hr).symm
  · exact List.mem_singleton_self _
  · intro s hs
    obtain rfl := List.mem_singleton.mp hs
    exact ⟨.refl r, SimpleGraph.dist_self.symm⟩
  · intro s hs _
    obtain rfl := List.mem_singleton.mp hs
    rfl
  · intro before s after hsplit p hp
    have hs : s ∈ [] ++ [(⟨r, none, 0⟩ : Seat)] := by
      rw [hsplit]
      exact List.mem_append_right _ List.mem_cons_self
    obtain rfl := List.mem_singleton.mp hs
    cases hp
  · simp
  · exact List.pairwise_singleton _ _
  · intro s hs t ht
    obtain rfl := List.mem_singleton.mp hs
    obtain rfl := List.mem_singleton.mp ht
    omega

/-- A tree that has stopped growing holds what is connected with its root. -/
theorem Growing.mem_order_iff (h : Growing G r vs done [] unseen) {v : Nat} :
    v ∈ order done ↔ G.Reachable r v := by
  have hroot := h.root
  have hdepth := h.depth
  have hclosed := h.closed
  rw [List.append_nil] at hroot hdepth hclosed
  constructor
  · intro hv
    obtain ⟨s, hs, rfl⟩ := mem_order.mp hv
    exact (hdepth s hs).1
  · intro hv
    rw [SimpleGraph.reachable_iff_reflTransGen] at hv
    induction hv with
    | refl => exact List.mem_map_of_mem hroot
    | tail _ hadj ih =>
      obtain ⟨s, hs, rfl⟩ := mem_order.mp ih
      exact hclosed s hs _ hadj

end GraphScribe.Forest
