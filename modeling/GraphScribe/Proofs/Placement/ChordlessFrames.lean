import GraphScribe.Proofs.Placement.DepthFirst
import GraphScribe.Scalar.Double
import Mathlib.Combinatorics.SimpleGraph.Paths

/-! # Chordless frames

A link across the shortest cycle that a search closes would have closed a shorter one, so that
cycle has no chord. Where no link closes a cycle, every link joins a box with the next on its way
back, and the box with the longest way back has no other neighbour: the component is a tree and has
a leaf. -/
namespace GraphScribe

namespace Component

/-- The boxes, in this order, are a cycle of at least three, and no other two are adjacent. -/
structure ChordlessCycle (G : SimpleGraph Nat) (frame : List Nat) : Prop where
  long : 3 ≤ frame.length
  nodup : frame.Nodup
  adj_iff : ∀ i j (_ : i < frame.length) (_ : j < frame.length),
    G.Adj frame[i] frame[j] ↔ (i + 1) % frame.length = j ∨ (j + 1) % frame.length = i

def HasCycle (G : SimpleGraph Nat) (vs : List Nat) : Prop := ∃ v ∈ vs, ∃ p : G.Walk v v, p.IsCycle

variable {G : SimpleGraph Nat}

theorem next_iff {n i j : Nat} (hij : i < j) (hj : j < n) :
    ((i + 1) % n = j ∨ (j + 1) % n = i) ↔ (j = i + 1 ∨ i = 0 ∧ j + 1 = n) := by
  rw [Nat.mod_eq_of_lt (by omega : i + 1 < n)]
  by_cases hlast : j + 1 = n
  · rw [hlast, Nat.mod_self]
    omega
  · rw [Nat.mod_eq_of_lt (by omega : j + 1 < n)]
    omega

theorem chordlessCycle_of_lt {frame : List Nat} (hlong : 3 ≤ frame.length) (hnodup : frame.Nodup)
    (hadj : ∀ i j (_ : i < frame.length) (_ : j < frame.length), i < j →
      (G.Adj frame[i] frame[j] ↔ j = i + 1 ∨ i = 0 ∧ j + 1 = frame.length)) :
    ChordlessCycle G frame := by
  refine ⟨hlong, hnodup, ?_⟩
  intro i j hi hj
  rcases lt_trichotomy i j with hlt | rfl | hgt
  · rw [hadj i j hi hj hlt, next_iff hlt hj]
  · constructor
    · intro hself
      exact absurd rfl hself.ne
    · intro hnext
      by_cases hlast : i + 1 = frame.length
      · rw [hlast, Nat.mod_self] at hnext
        omega
      · rw [Nat.mod_eq_of_lt (by omega : i + 1 < frame.length)] at hnext
        omega
  · rw [G.adj_comm, hadj j i hj hi hgt, ← next_iff hgt hi, or_comm]

theorem ChordlessCycle.isChain {c : List Nat} (h : ChordlessCycle G c) : c.IsChain G.Adj := by
  rw [List.isChain_iff_getElem]
  intro i hi
  rw [h.adj_iff i (i + 1) (by omega) hi]
  exact .inl (Nat.mod_eq_of_lt hi)

theorem ChordlessCycle.hasCycle {c : List Nat} (h : ChordlessCycle G c) : HasCycle G c := by
  have hlong := h.long
  have hne : c ≠ [] := List.ne_nil_of_length_pos (by omega)
  have hclose : G.Adj (c.getLast hne) (c.head hne) := by
    rw [List.getLast_eq_getElem, List.head_eq_getElem, h.adj_iff _ _ (by omega) (by omega)]
    left
    rw [Nat.sub_add_cancel (by omega), Nat.mod_self]
  let p := SimpleGraph.Walk.ofSupport c hne h.isChain
  have hsupport : p.support = c := SimpleGraph.Walk.support_ofSupport hne h.isChain
  have hpath : p.IsPath := by
    rw [SimpleGraph.Walk.isPath_def, hsupport]
    exact h.nodup
  refine ⟨c.getLast hne, List.getLast_mem hne, .cons hclose p, ?_⟩
  rw [SimpleGraph.Walk.cons_isCycle_iff]
  refine ⟨hpath, ?_⟩
  -- a path with an edge between its ends is that edge
  intro hedge
  have hone := hpath.length_eq_one_of_mem_edges (Sym2.eq_swap ▸ hedge)
  have hlength := p.length_support
  rw [hsupport] at hlength
  omega

namespace Exploring

variable {r : Nat} {vs c : List Nat} {up : Nat → List Nat} {s : Search}

/-- Boxes on one way back that are adjacent and not next to each other are no nearer to each other
than the ends of the shortest cycle. -/
theorem length_le_of_adj (h : Exploring G r vs up [] s) (hc : s.cycle = some c) {v i j x y : Nat}
    (hv : v ∈ s.met) (hx : (up v)[i]? = some x) (hy : (up v)[j]? = some y) (hij : i + 2 ≤ j)
    (hadj : G.Adj x y) : c.length ≤ j - i + 1 := by
  have hmet : x ∈ s.met := h.ways.mem_met hv (List.mem_of_getElem? hx)
  have hrest : (up x)[j - i]? = some y := by
    rw [h.ways.up_getElem hv hx, List.getElem?_drop, ← hy]
    congr 1
    omega
  have hclosed := (closed?_eq_some (h.ways.nodup hmet)).mpr ⟨j - i, by omega, hrest, rfl⟩
  obtain ⟨b, hb, hle⟩ := (h.settle hmet hadj).bound _ hclosed
  obtain rfl : c = b := by
    rw [hc] at hb
    exact Option.some.inj hb
  exact hle.trans (List.length_take_le _ _)

theorem chordless (h : Exploring G r vs up [] s) (hc : s.cycle = some c) :
    ChordlessCycle G c ∧ ∀ v ∈ c, v ∈ s.met := by
  obtain ⟨v, hv, w, hadj, hclosed⟩ := h.cycle c hc
  obtain ⟨k, htwo, hk, rfl⟩ := (closed?_eq_some (h.ways.nodup hv)).mp hclosed
  obtain ⟨ws, hhead⟩ := h.ways.head hv
  have hlast : k < (up v).length := (List.getElem?_eq_some_iff.mp hk).1
  have hlength : ((up v).take (k + 1)).length = k + 1 := by
    rw [List.length_take]
    omega
  constructor
  · apply chordlessCycle_of_lt
    · omega
    · exact (h.ways.nodup hv).sublist (List.take_sublist _ _)
    · intro i j hi hj hij
      rw [hlength] at hi hj
      rw [hlength, List.getElem_take, List.getElem_take]
      constructor
      · intro hij'
        by_cases hnext : j = i + 1
        · exact .inl hnext
        · -- a chord is no shorter than the cycle, so it joins its ends
          have hle := h.length_le_of_adj hc hv (List.getElem?_eq_getElem (by omega))
            (List.getElem?_eq_getElem (by omega)) (by omega : i + 2 ≤ j) hij'
          omega
      · rintro (rfl | ⟨rfl, hj'⟩)
        · exact List.isChain_iff_getElem.mp (h.ways.chain hv) i (by omega)
        · obtain rfl : j = k := by omega
          have hfirst : (up v)[0] = v := by simp [hhead]
          have hend : (up v)[j] = w := (List.getElem?_eq_some_iff.mp hk).2
          rw [hfirst, hend]
          exact hadj
  · intro x hx
    exact h.ways.mem_met hv (List.mem_of_mem_take hx)

/-- A neighbour whose way back is no longer is the next box on the way back. -/
theorem next_up (h : Exploring G r vs up [] s) (hnone : s.cycle = none) {x y : Nat}
    (hx : x ∈ s.met) (hadj : G.Adj x y) (hle : (up y).length ≤ (up x).length) :
    (up x)[1]? = some y := by
  have hsettled := h.settle hx hadj
  have hlt : (up y).length < (up x).length := by
    rcases hsettled.related with hy | hx'
    · exact h.ways.length_lt hx hy hadj.ne
    · have hgt := h.ways.length_lt hsettled.met hx' hadj.ne'
      omega
  by_contra hnext
  obtain ⟨c, hclosed⟩ := Option.isSome_iff_exists.mp ((h.closes_iff hx hadj).mpr ⟨hlt, hnext⟩)
  obtain ⟨b, hb, -⟩ := hsettled.bound c hclosed
  rw [hnone] at hb
  cases hb

theorem neighbor_unique (h : Exploring G r vs up [] s) (hnone : s.cycle = none) {x y z : Nat}
    (hx : x ∈ s.met) (hy : G.Adj x y) (hz : G.Adj x z) (hyx : (up y).length ≤ (up x).length)
    (hzx : (up z).length ≤ (up x).length) : y = z := by
  have hnext := h.next_up hnone hx hy hyx
  rw [h.next_up hnone hx hz hzx] at hnext
  exact (Option.some.inj hnext).symm

theorem not_hasCycle (h : Exploring G r vs up [] s) (hnone : s.cycle = none) :
    ¬HasCycle G s.met := by
  rintro ⟨v, hv, p, hp⟩
  -- of the boxes on the cycle, the one with the longest way back would have two next boxes
  obtain ⟨x, hx, hmax⟩ := p.support.toFinset.exists_max_image (fun x => (up x).length)
    ⟨v, List.mem_toFinset.mpr p.start_mem_support⟩
  rw [List.mem_toFinset] at hx
  have hq : (p.rotate x hx).IsCycle := hp.rotate hx
  generalize hrotate : p.rotate x hx = q at hq
  have hbound : ∀ y ∈ q.support, (up y).length ≤ (up x).length := by
    intro y hy
    rw [← hrotate, SimpleGraph.Walk.mem_support_rotate_iff] at hy
    exact hmax y (List.mem_toFinset.mpr hy)
  have hmet : x ∈ s.met := by
    rw [h.mem_met_iff] at hv ⊢
    exact hv.trans (p.takeUntil x hx).reachable
  have hsnd := hbound q.snd (SimpleGraph.Walk.getVert_mem_support _ _)
  have hpenultimate := hbound q.penultimate (SimpleGraph.Walk.getVert_mem_support _ _)
  exact hq.snd_ne_penultimate (h.neighbor_unique hnone hmet (q.adj_snd hq.not_nil)
    (q.adj_penultimate hq.not_nil).symm hsnd hpenultimate)

theorem exists_leaf {adjacent : Nat → List Nat} (hG : Lists adjacent G vs)
    (hadjacent : ∀ v ∈ vs, (adjacent v).Nodup) (h : Exploring G r vs up [] s)
    (hnone : s.cycle = none) : ∃ v ∈ s.met, (adjacent v).length ≤ 1 := by
  obtain ⟨x, hx, hmax⟩ := s.met.toFinset.exists_max_image (fun x => (up x).length)
    ⟨r, List.mem_toFinset.mpr h.ways.start⟩
  rw [List.mem_toFinset] at hx
  have hvs : x ∈ vs := h.perm.mem_iff.mp (List.mem_append_left _ hx)
  refine ⟨x, hx, ?_⟩
  have hnodup := hadjacent x hvs
  match hlist : adjacent x with
  | [] => simp
  | [_] => simp
  | y :: z :: rest =>
    have hy : G.Adj x y := (hG x hvs y).mp (by simp [hlist])
    have hz : G.Adj x z := (hG x hvs z).mp (by simp [hlist])
    have hyx := hmax y (List.mem_toFinset.mpr (h.settle hx hy).met)
    have hzx := hmax z (List.mem_toFinset.mpr (h.settle hx hz).met)
    have heq := h.neighbor_unique hnone hx hy hz hyx hzx
    simp [hlist, heq] at hnodup

end Exploring

/-- The component is one of the graph, and its frame is a chordless cycle or, in a tree, the
leaves. -/
structure Outlined (adjacent : Nat → List Nat) (G : SimpleGraph Nat) (c : Component) : Prop where
  connected : ∀ v ∈ c.nodes, ∀ w, w ∈ c.nodes ↔ G.Reachable v w
  nonempty : c.frame ≠ []
  cyclic : HasCycle G c.nodes → ChordlessCycle G c.frame
  leaves : ¬HasCycle G c.nodes → ∀ v, v ∈ c.frame ↔ v ∈ c.nodes ∧ (adjacent v).length ≤ 1

/-- The components hold the boxes, each once, and come in the order of their least boxes. -/
structure Splits (adjacent : Nat → List Nat) (G : SimpleGraph Nat) (vs : List Nat)
    (cs : List Component) : Prop where
  perm : (cs.flatMap Component.nodes).Perm vs
  outlined : ∀ c ∈ cs, Outlined adjacent G c
  sorted : cs.Pairwise fun a b => ∃ v ∈ a.nodes, ∀ w ∈ b.nodes, v < w

section Components

variable {adjacent : Nat → List Nat} {vs : List Nat}

theorem nodes_perm {frame nodes : List Nat} (hframe : frame.Nodup) (hnodes : nodes.Nodup)
    (hsub : ∀ v ∈ frame, v ∈ nodes) :
    (Component.mk frame (nodes.filter fun v => !frame.contains v)).nodes.Perm nodes := by
  unfold Component.nodes
  rw [List.perm_ext_iff_of_nodup]
  · intro v
    rw [List.mem_append, List.mem_filter]
    by_cases hv : v ∈ frame
    · simp [hv, hsub v hv]
    · simp [hv]
  · refine hframe.append (hnodes.filter _) ?_
    intro v hv hrest
    simp [hv] at hrest
  · exact hnodes

theorem Exploring.outlined (hvs : vs.Nodup) (hG : Lists adjacent G vs)
    (hadjacent : ∀ v ∈ vs, (adjacent v).Nodup) {r : Nat} {up : Nat → List Nat} {s : Search}
    (h : Exploring G r vs up [] s) :
    Outlined adjacent G (ofSearch adjacent s) ∧ (ofSearch adjacent s).nodes.Perm s.met := by
  have hmet : s.met.reverse.Nodup :=
    List.nodup_reverse.mpr ((h.perm.nodup_iff.mpr hvs).sublist (List.sublist_append_left _ _))
  have hconnected : ∀ c : Component, c.nodes.Perm s.met →
      ∀ v ∈ c.nodes, ∀ w, w ∈ c.nodes ↔ G.Reachable v w := by
    intro c hc v hv w
    rw [hc.mem_iff, h.mem_met_iff] at hv ⊢
    constructor
    · intro hw
      exact hv.symm.trans hw
    · intro hw
      exact hv.trans hw
  have hcycles : ∀ c : Component, c.nodes.Perm s.met → (HasCycle G c.nodes ↔ HasCycle G s.met) := by
    intro c hc
    simp only [HasCycle, hc.mem_iff]
  unfold ofSearch
  cases hcycle : s.cycle with
  | some c =>
    obtain ⟨hchordless, hsub⟩ := h.chordless hcycle
    have hperm := (nodes_perm hchordless.nodup hmet fun v hv =>
      List.mem_reverse.mpr (hsub v hv)).trans (List.reverse_perm s.met)
    refine ⟨⟨hconnected _ hperm, ?_, fun _ => hchordless, ?_⟩, hperm⟩
    · have hlong := hchordless.long
      exact List.ne_nil_of_length_pos (by simp only; omega)
    · intro hacyclic
      obtain ⟨v, hv, p, hp⟩ := hchordless.hasCycle
      exact absurd ((hcycles _ hperm).mpr ⟨v, hsub v hv, p, hp⟩) hacyclic
  | none =>
    have hperm := (nodes_perm (hmet.filter fun v => (adjacent v).length ≤ 1) hmet fun v hv =>
      (List.mem_filter.mp hv).1).trans (List.reverse_perm s.met)
    refine ⟨⟨hconnected _ hperm, ?_, ?_, ?_⟩, hperm⟩
    · obtain ⟨v, hv, hleaf⟩ := h.exists_leaf hG hadjacent hcycle
      refine List.ne_nil_of_mem (a := v) ?_
      simp [hv, hleaf]
    · intro hcyclic
      exact absurd ((hcycles _ hperm).mp hcyclic) (h.not_hasCycle hcycle)
    · intro _ v
      rw [hperm.mem_iff]
      simp

theorem splits_collect (hG : Lists adjacent G vs) (hadjacent : ∀ v ∈ vs, (adjacent v).Nodup)
    (hvs : vs.Nodup) (hclosed : Closed G vs) {starts : List Nat} (hsorted : starts.Pairwise (· < ·))
    (hstarts : ∀ v ∈ vs, v ∈ starts) : Splits adjacent G vs (collect adjacent starts vs) := by
  induction starts generalizing vs with
  | nil =>
    obtain rfl : vs = [] := by
      apply List.eq_nil_iff_forall_not_mem.mpr
      intro v hv
      simpa using hstarts v hv
    exact ⟨.refl _, by simp [collect], .nil⟩
  | cons r starts ih =>
    obtain ⟨hleast, hsorted⟩ := List.pairwise_cons.mp hsorted
    unfold collect
    by_cases hr : r ∈ vs
    · rw [if_pos (by simpa using hr)]
      obtain ⟨up, h⟩ := (exploring_first adjacent hr hG).run hvs hG hclosed
      obtain ⟨houtlined, hmet⟩ := h.outlined hvs hG hadjacent
      generalize search adjacent [(r, adjacent r)] ⟨vs.erase r, [r], none⟩ = s at h houtlined hmet ⊢
      have hsub : ∀ v ∈ s.unseen, v ∈ vs := fun v hv =>
        h.perm.mem_iff.mp (List.mem_append_right _ hv)
      have hroot : r ∉ s.unseen :=
        List.disjoint_of_nodup_append (h.perm.nodup_iff.mpr hvs) h.ways.start
      have hfresh : ∀ v ∈ s.unseen, v ∈ starts :=
        mem_later (fun v hv => hstarts v (hsub v hv)) hroot
      have hrest := ih (fun v hv => hG v (hsub v hv)) (fun v hv => hadjacent v (hsub v hv))
        ((h.perm.nodup_iff.mpr hvs).sublist (List.sublist_append_right _ _))
        (hclosed.left hvs h.perm fun _ => h.mem_met_iff) hsorted hfresh
      constructor
      · rw [List.flatMap_cons]
        exact (hmet.append hrest.perm).trans h.perm
      · exact List.forall_mem_cons.mpr ⟨houtlined, hrest.outlined⟩
      · refine List.pairwise_cons.mpr ⟨?_, hrest.sorted⟩
        intro c hc
        refine ⟨r, hmet.mem_iff.mpr h.ways.start, ?_⟩
        intro w hw
        have hleft : w ∈ s.unseen := hrest.perm.mem_iff.mp (List.mem_flatMap.mpr ⟨c, hc, hw⟩)
        exact hleast w (hfresh w hleft)
    · rw [if_neg (by simpa using hr)]
      exact ih hG hadjacent hvs hclosed hsorted (mem_later hstarts hr)

end Components

/-- The lists of the boxes `0 ..< count` name every neighbour once, no box itself, and a box lists
the boxes that list it. -/
structure Simple (adjacent : Nat → List Nat) (count : Nat) : Prop where
  inside : ∀ v < count, ∀ w ∈ adjacent v, w < count
  symm : ∀ v < count, ∀ w ∈ adjacent v, v ∈ adjacent w
  irrefl : ∀ v < count, v ∉ adjacent v
  nodup : ∀ v < count, (adjacent v).Nodup

def graph (adjacent : Nat → List Nat) (count : Nat) : SimpleGraph Nat :=
  .fromRel fun v w => v < count ∧ w ∈ adjacent v

theorem Simple.adj_iff {adjacent : Nat → List Nat} {count : Nat} (h : Simple adjacent count)
    {v w : Nat} : (graph adjacent count).Adj v w ↔ v < count ∧ w ∈ adjacent v := by
  rw [graph, SimpleGraph.fromRel_adj]
  constructor
  · rintro ⟨-, hvw | ⟨hw, hv⟩⟩
    · exact hvw
    · exact ⟨h.inside w hw v hv, h.symm w hw v hv⟩
  · rintro ⟨hv, hw⟩
    refine ⟨?_, .inl ⟨hv, hw⟩⟩
    rintro rfl
    exact h.irrefl v hv hw

theorem all_splits {adjacent : Nat → List Nat} {count : Nat} (h : Simple adjacent count) :
    Splits adjacent (graph adjacent count) (List.range count) (all adjacent count) := by
  apply splits_collect
  · intro v hv w
    rw [h.adj_iff]
    simp [List.mem_range.mp hv]
  · intro v hv
    exact h.nodup v (List.mem_range.mp hv)
  · exact List.nodup_range
  · intro v _ w hadj
    obtain ⟨hv, hw⟩ := h.adj_iff.mp hadj
    exact List.mem_range.mpr (h.inside v hv w hw)
  · exact List.pairwise_lt_range
  · intro v hv
    exact hv

end Component

namespace Diagram

variable {α : Type}

def rows (d : Diagram α) : Nat → List Nat :=
  fun v => ((d.indices.map d.neighbors).toArray).getD v []

theorem rows_eq (d : Diagram α) {v : Nat} (hv : v < d.count) : d.rows v = d.neighbors v := by
  simp [rows, indices, hv]

theorem Linked.mem_rows {d : Diagram α} (h : d.Linked) {v : Nat} (hv : v < d.count) {w : Nat} :
    w ∈ d.rows v ↔ d.joined.Adj v w := by
  rw [d.rows_eq hv, h.mem_neighbors]

theorem nodup_rows (d : Diagram α) {v : Nat} (hv : v < d.count) : (d.rows v).Nodup := by
  rw [d.rows_eq hv]
  exact d.nodup_neighbors v

theorem Linked.simple_rows {d : Diagram α} (h : d.Linked) : Component.Simple d.rows d.count := by
  constructor
  · intro v hv w hw
    exact (h.lt_of_adj ((h.mem_rows hv).mp hw)).2
  · intro v hv w hw
    have hadj := (h.mem_rows hv).mp hw
    exact (h.mem_rows (h.lt_of_adj hadj).2).mpr hadj.symm
  · intro v hv hself
    exact ((h.mem_rows hv).mp hself).ne rfl
  · intro v hv
    exact d.nodup_rows hv

theorem Linked.splits {d : Diagram α} (h : d.Linked) :
    Component.Splits d.rows d.joined d.indices (Component.all d.rows d.count) := by
  apply Component.splits_collect
  · intro v hv w
    exact h.mem_rows (List.mem_range.mp hv)
  · intro v hv
    exact d.nodup_rows (List.mem_range.mp hv)
  · exact List.nodup_range
  · intro v _ w hadj
    exact List.mem_range.mpr (h.lt_of_adj hadj).2
  · exact List.pairwise_lt_range
  · intro v hv
    exact hv

def kite : Diagram Float := sketch 6 [(0, 2), (2, 3), (3, 5), (5, 0), (3, 0), (1, 4)]

end Diagram

theorem Component.all_splits_kite :
    Simple Diagram.kite.rows 6 ∧
      all Diagram.kite.rows 6 = [⟨[3, 2, 0], [5]⟩, ⟨[1, 4], []⟩] ∧
      Splits Diagram.kite.rows (graph Diagram.kite.rows 6) (List.range 6)
        (all Diagram.kite.rows 6) := by
  have hbuilt : Diagram.kite.Built := Diagram.built_sketch (by decide)
  have hcount : Diagram.kite.count = 6 := by decide +kernel
  have hsimple : Simple Diagram.kite.rows 6 := hcount ▸ hbuilt.linked.simple_rows
  have hrows : (List.range 6).map Diagram.kite.rows =
      [[2, 3, 5], [4], [0, 3], [0, 2, 5], [1], [0, 3]] := by decide +kernel
  refine ⟨hsimple, ?_, all_splits hsimple⟩
  simp only [List.range, List.range.loop, List.map, List.cons.injEq, and_true] at hrows
  obtain ⟨h0, h1, h2, h3, h4, h5⟩ := hrows
  simp [all, collect, search, ofSearch, closed?, backTo, shorter, Path.boxes, List.range,
    List.range.loop, h0, h1, h2, h3, h4, h5]

end GraphScribe
