import GraphScribe.Proofs.Placement.Release
import GraphScribe.Scalar.Double
import Mathlib.Data.List.Chain
import Mathlib.Order.Bounds.Defs

/-! # Ranks are lengths of longest paths

Where no cycle goes through several boxes, the rank of a box is the length of the longest path that
ends at it. Elsewhere it is still the length of some walk to the box, and grows along a link unless a
box behind a cycle raises the link's source after the source has been taken. -/
namespace GraphScribe

open Relation (TransGen ReflTransGen)

variable {α : Type}

namespace Ranks

theorem length_foldl_modify (k : Nat) (ws rs : List Nat) :
    (ws.foldl (fun rs w => rs.modify w (max · k)) rs).length = rs.length := by
  induction ws generalizing rs with
  | nil => rfl
  | cons w ws ih => rw [List.foldl_cons, ih, List.length_modify]

theorem getD_foldl_modify (k : Nat) (ws : List Nat) {rs : List Nat} {v : Nat}
    (hv : v < rs.length) : (ws.foldl (fun rs w => rs.modify w (max · k)) rs).getD v 0 =
      if v ∈ ws then max (rs.getD v 0) k else rs.getD v 0 := by
  induction ws generalizing rs with
  | nil => rfl
  | cons w ws ih =>
    have hone : (rs.modify w (max · k)).getD v 0 =
        if v = w then max (rs.getD v 0) k else rs.getD v 0 := by
      rw [List.getD_eq_getElem _ _ (by simpa using hv), List.getElem_modify,
        List.getD_eq_getElem _ _ hv]
      simp only [eq_comm]
    rw [List.foldl_cons, ih (by simpa using hv), hone]
    by_cases hw : v = w
    · simp [hw]
    · simp [hw]

theorem length_raise (successors : Nat → List Nat) (rs : List Nat) (v : Nat) :
    (raise successors rs v).length = rs.length := length_foldl_modify _ _ rs

theorem length_foldl_raise (successors : Nat → List Nat) (order rs : List Nat) :
    (order.foldl (raise successors) rs).length = rs.length := by
  induction order generalizing rs with
  | nil => rfl
  | cons v order ih => rw [List.foldl_cons, ih, length_raise]

end Ranks

namespace Diagram

/-- A path to box `v`: each box leads to the next, and none comes twice. Its length is the number of
its links, one less than that of its boxes. -/
structure IsPathTo (d : Diagram α) (v : Nat) (p : List Nat) : Prop where
  chain : p.IsChain d.Leads
  nodup : p.Nodup
  last : p.getLast? = some v

/-- No cycle goes through several boxes; loops do not count. -/
def Acyclic (d : Diagram α) : Prop := ∀ v, ¬TransGen d.Leads v v

variable {d : Diagram α}

theorem length_ranks (d : Diagram α) : d.ranks.length = d.count := by
  rw [ranks, Ranks.length_foldl_raise, List.length_replicate]

theorem getD_raise (hd : d.Linked) {rs : List Nat} (hrs : rs.length = d.count) (v : Nat) {w : Nat}
    (hw : w < d.count) : (Ranks.raise d.successors rs v).getD w 0 =
      if d.Leads v w then max (rs.getD w 0) (rs.getD v 0 + 1) else rs.getD w 0 := by
  have hmem : w ∈ (d.successors v).filter (· != v) ↔ d.Leads v w := by
    rw [List.mem_filter, hd.mem_successors, bne_iff_ne, Leads, and_comm, ne_comm]
  unfold Ranks.raise
  rw [Ranks.getD_foldl_modify _ _ (by omega)]
  simp only [hmem]

theorem le_foldl_raise (hd : d.Linked) (order : List Nat) {rs : List Nat}
    (hrs : rs.length = d.count) {w : Nat} (hw : w < d.count) :
    rs.getD w 0 ≤ (order.foldl (Ranks.raise d.successors) rs).getD w 0 := by
  induction order generalizing rs with
  | nil => exact le_rfl
  | cons v order ih =>
    refine le_trans ?_ (ih (by rwa [Ranks.length_raise]))
    rw [getD_raise hd hrs v hw]
    split
    · exact le_max_left _ _
    · exact le_rfl

/-- What nothing in the order leads to keeps its rank. -/
theorem foldl_raise_eq (hd : d.Linked) {order rs : List Nat} (hrs : rs.length = d.count) {u : Nat}
    (hu : u < d.count) (h : ∀ v ∈ order, ¬d.Leads v u) :
    (order.foldl (Ranks.raise d.successors) rs).getD u 0 = rs.getD u 0 := by
  induction order generalizing rs with
  | nil => rfl
  | cons v order ih =>
    obtain ⟨hv, hrest⟩ := List.forall_mem_cons.mp h
    rw [List.foldl_cons, ih (by rwa [Ranks.length_raise]) hrest, getD_raise hd hrs v hu, if_neg hv]

theorem rank_lt_of_settled (hd : d.Linked) {before after : List Nat} {u v : Nat}
    (horder : d.rankOrder = before ++ u :: after) (huv : d.Leads u v)
    (hsettled : ∀ w ∈ after, ¬d.Leads w u) : d.ranks.getD u 0 < d.ranks.getD v 0 := by
  obtain ⟨hu, hv⟩ := hd.lt_of_leads huv
  have hself : ¬d.Leads u u := fun h => h.1 rfl
  unfold ranks
  rw [horder, List.foldl_append, List.foldl_cons]
  have hlength := Ranks.length_foldl_raise d.successors before (List.replicate d.count 0)
  rw [List.length_replicate] at hlength
  generalize before.foldl (Ranks.raise d.successors) (List.replicate d.count 0) = rs at hlength ⊢
  have hraised : (Ranks.raise d.successors rs u).length = d.count := by rwa [Ranks.length_raise]
  have htarget : rs.getD u 0 + 1 ≤ (Ranks.raise d.successors rs u).getD v 0 := by
    rw [getD_raise hd hlength u hv, if_pos huv]
    exact le_max_right _ _
  have hfinal := le_foldl_raise hd after hraised hv
  rw [foldl_raise_eq hd hraised hu hsettled, getD_raise hd hlength u hu, if_neg hself]
  omega

theorem rank_lt (hd : d.Linked) {u v : Nat} (huv : d.Leads u v)
    (hsettled : ∀ w, d.Leads w u → d.Behind w → w < u) : d.ranks.getD u 0 < d.ranks.getD v 0 := by
  have hu : u ∈ d.rankOrder :=
    (rankOrder_perm hd).mem_iff.mpr (List.mem_range.mpr (hd.lt_of_leads huv).1)
  obtain ⟨before, after, horder⟩ := List.append_of_mem hu
  have hpairs := rankOrder_pairwise hd
  rw [horder, List.pairwise_append, List.pairwise_cons] at hpairs
  apply rank_lt_of_settled hd horder huv
  intro w hw hwu
  obtain ⟨hbehind, hlt⟩ := hpairs.2.1.1 w hw hwu
  exact absurd (hsettled w hwu hbehind) (lt_asymm hlt)

/-- Each rank is the length of a walk. -/
def Attained (d : Diagram α) (rs : List Nat) : Prop :=
  ∀ v < d.count, ∃ p : List Nat,
    p.IsChain d.Leads ∧ p.getLast? = some v ∧ p.length = rs.getD v 0 + 1

theorem attained_zero (d : Diagram α) : d.Attained (List.replicate d.count 0) := by
  intro v hv
  refine ⟨[v], .singleton v, rfl, ?_⟩
  simp [hv]

theorem Attained.raise (hd : d.Linked) {rs : List Nat} (hrs : rs.length = d.count)
    (h : d.Attained rs) (v : Nat) : d.Attained (Ranks.raise d.successors rs v) := by
  intro w hw
  rw [getD_raise hd hrs v hw]
  split
  · rename_i hleads
    by_cases hle : rs.getD v 0 + 1 ≤ rs.getD w 0
    · rw [max_eq_left hle]
      exact h w hw
    · obtain ⟨p, hchain, hlast, hlength⟩ := h v (hd.lt_of_leads hleads).1
      rw [max_eq_right (by omega)]
      refine ⟨p ++ [w], ?_, List.getLast?_concat, ?_⟩
      · refine hchain.append (.singleton w) ?_
        intro x hx y hy
        rw [hlast, Option.mem_some_iff] at hx
        rw [List.head?_singleton, Option.mem_some_iff] at hy
        rwa [← hx, ← hy]
      · rw [List.length_append, hlength, List.length_singleton]
  · exact h w hw

theorem attained_ranks (hd : d.Linked) : d.Attained d.ranks := by
  have hfold : ∀ (order rs : List Nat), rs.length = d.count → d.Attained rs →
      d.Attained (order.foldl (Ranks.raise d.successors) rs) := by
    intro order
    induction order with
    | nil =>
      intro rs _ h
      exact h
    | cons v order ih =>
      intro rs hrs h
      exact ih _ (by rwa [Ranks.length_raise]) (h.raise hd hrs v)
  exact hfold _ _ List.length_replicate d.attained_zero

theorem length_le_of_chain (hup : ∀ u v, d.Leads u v → d.ranks.getD u 0 < d.ranks.getD v 0)
    {p : List Nat} (hp : p.IsChain d.Leads) {v : Nat} (hlast : p.getLast? = some v) :
    p.length ≤ d.ranks.getD v 0 + 1 := by
  induction p using List.reverseRecOn generalizing v with
  | nil => simp
  | append_singleton p w ih =>
    obtain rfl : w = v := by simpa using hlast
    obtain ⟨hp', -, hlink⟩ := List.isChain_append.mp hp
    rw [List.length_append, List.length_singleton]
    cases hbefore : p.getLast? with
    | none =>
      rw [List.getLast?_eq_none_iff.mp hbefore]
      simp
    | some u =>
      have hle := ih hp' hbefore
      have hlt := hup u w (hlink u hbefore w rfl)
      omega

theorem Acyclic.nodup (h : d.Acyclic) {p : List Nat} (hp : p.IsChain d.Leads) : p.Nodup := by
  have htrans : p.IsChain (TransGen d.Leads) := hp.imp fun _ _ => .single
  refine htrans.pairwise.imp ?_
  rintro u v huv rfl
  exact h u huv

theorem Acyclic.not_behind (h : d.Acyclic) (v : Nat) : ¬d.Behind v := by
  rintro ⟨c, hcycle, -⟩
  exact h c hcycle

theorem acyclic_of_lt (h : ∀ v w, d.Leads v w → v < w) : d.Acyclic := by
  intro v hcycle
  have hlt : ∀ {u w}, TransGen d.Leads u w → u < w := by
    intro u w hpath
    induction hpath with
    | single huw => exact h _ _ huw
    | tail _ hyw ih => exact ih.trans (h _ _ hyw)
  exact lt_irrefl v (hlt hcycle)

theorem rank_longest (hd : d.Linked) (h : d.Acyclic) {v : Nat} (hv : v < d.count) :
    IsGreatest {n | ∃ p, d.IsPathTo v p ∧ p.length = n + 1} (d.ranks.getD v 0) := by
  constructor
  · obtain ⟨p, hchain, hlast, hlength⟩ := attained_ranks hd v hv
    exact ⟨p, ⟨hchain, h.nodup hchain, hlast⟩, hlength⟩
  · rintro n ⟨p, hp, hlength⟩
    have hup : ∀ u w, d.Leads u w → d.ranks.getD u 0 < d.ranks.getD w 0 :=
      fun u w huw => rank_lt hd huw fun x _ hx => absurd hx (h.not_behind x)
    have hle := length_le_of_chain hup hp.chain hp.last
    omega

variable [Scalar α]

/-- On every diagram no count is lowered below zero and each box enters the order once; where no
cycle goes through several boxes, the rank of a box is the length of the longest path that ends at
it. -/
theorem ranks_longest (hd : d.Built) :
    d.rankOrder? = some d.rankOrder ∧ d.rankOrder.Perm d.indices ∧ d.ranks.length = d.count ∧
      (d.Acyclic → ∀ v < d.count,
        IsGreatest {n | ∃ p, d.IsPathTo v p ∧ p.length = n + 1} (d.ranks.getD v 0)) := by
  refine ⟨rankOrder?_eq hd.linked, rankOrder_perm hd.linked, d.length_ranks, ?_⟩
  intro h v hv
  exact rank_longest hd.linked h hv

def ladder : Diagram Float := sketch 4 [(0, 1), (0, 1), (1, 2), (0, 2), (2, 3), (3, 3)]

theorem ranks_longest_ladder :
    ladder.Built ∧ ladder.Acyclic ∧ ladder.ranks = [0, 1, 2, 3] ∧
      ladder.rankOrder? = some [0, 1, 2, 3] ∧
      IsGreatest {n | ∃ p, ladder.IsPathTo 3 p ∧ p.length = n + 1} 3 := by
  have hbuilt : ladder.Built := built_sketch (by decide)
  have hacyclic : ladder.Acyclic := by
    apply acyclic_of_lt
    rintro v w ⟨hne, hlink⟩
    have hall : ∀ e ∈ [(0, 1), (0, 1), (1, 2), (0, 2), (2, 3), (3, 3)], e.1 ≤ e.2 := by decide
    exact lt_of_le_of_ne (hall _ (links_sketch.mp hlink)) hne
  have hranks : ladder.ranks = [0, 1, 2, 3] := by decide +kernel
  obtain ⟨hchecked, -, -, hlongest⟩ := ranks_longest hbuilt
  have horder : ladder.rankOrder = [0, 1, 2, 3] := by decide +kernel
  refine ⟨hbuilt, hacyclic, hranks, horder ▸ hchecked, ?_⟩
  have hthree := hlongest hacyclic 3 (by decide +kernel)
  rwa [hranks] at hthree

/-- A link goes up unless some box on or behind a cycle, with a higher index than the link's source,
leads to that source. -/
theorem ranks_increase (hd : d.Built) {u v : Nat} (huv : d.Leads u v)
    (hsettled : ∀ w, d.Leads w u → d.Behind w → w < u) : d.ranks.getD u 0 < d.ranks.getD v 0 :=
  rank_lt hd.linked huv hsettled

/-- A cycle through boxes 1 and 2 leads on to box 0, and from there to box 3. -/
def trailing : Diagram Float := sketch 4 [(0, 3), (1, 2), (2, 1), (2, 0)]

theorem ranks_increase_trailing :
    trailing.Built ∧ trailing.Leads 2 0 ∧ trailing.Behind 1 ∧ trailing.Leads 1 2 ∧
      trailing.ranks.getD 2 0 < trailing.ranks.getD 0 0 := by
  have hbuilt : trailing.Built := built_sketch (by decide)
  have hlink : trailing.Leads 2 0 := ⟨by decide, links_sketch.mpr (by decide)⟩
  have hup : trailing.Leads 1 2 := ⟨by decide, links_sketch.mpr (by decide)⟩
  have hdown : trailing.Leads 2 1 := ⟨by decide, links_sketch.mpr (by decide)⟩
  have hbehind : trailing.Behind 1 := ⟨1, .head hup (.single hdown), .refl⟩
  refine ⟨hbuilt, hlink, hbehind, hup, ranks_increase hbuilt hlink ?_⟩
  rintro w ⟨-, hw⟩ -
  have hall : ∀ e ∈ [(0, 3), (1, 2), (2, 1), (2, 0)], e.2 = 2 → e.1 < 2 := by decide
  exact hall (w, 2) (links_sketch.mp hw) rfl

/-- The link from box 0 to box 3 is on no cycle and falls: box 2 raises box 0 after its turn. -/
theorem ranks_fall_trailing :
    trailing.Built ∧ trailing.Links 0 3 ∧ ¬ReflTransGen trailing.Links 3 0 ∧
      trailing.ranks = [2, 2, 1, 1] ∧ ¬trailing.ranks.getD 0 0 < trailing.ranks.getD 3 0 := by
  have hranks : trailing.ranks = [2, 2, 1, 1] := by decide +kernel
  refine ⟨built_sketch (by decide), links_sketch.mpr (by decide), ?_, hranks, ?_⟩
  · intro hpath
    rcases Relation.ReflTransGen.cases_head hpath with heq | ⟨w, hw, -⟩
    · cases heq
    · have hall : ∀ e ∈ [(0, 3), (1, 2), (2, 1), (2, 0)], e.1 ≠ 3 := by decide
      exact hall (3, w) (links_sketch.mp hw) rfl
  · rw [hranks]
    decide

end Diagram
end GraphScribe
