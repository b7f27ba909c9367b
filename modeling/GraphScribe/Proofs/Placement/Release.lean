import GraphScribe.Placement.Ranks
import GraphScribe.Proofs.Diagram.Links
import Mathlib.Data.List.GetD
import Mathlib.Order.WellFounded

/-! # The order in which ranks are given

Taking a box counts its links out of the boxes they lead to; a box that no link is left to enters the
queue. No count is ever lowered below zero, so every box is taken at most once, after all boxes that
lead to it. What is never taken is what a cycle leads to, and follows by index. -/
namespace GraphScribe

open Relation (TransGen ReflTransGen)

namespace Ranks

/-- Counting down with a check: `none` where a count would be lowered that is zero or missing. -/
def countDown? (u : Nat) : List Nat → List Nat → Option (List Nat × List Nat)
  | [], pending => some ([], pending)
  | v :: vs, pending =>
    if v = u then countDown? u vs pending
    else
      match pending[v]? with
      | some (n + 1) =>
        (countDown? u vs (pending.set v n)).map fun r =>
          (if n = 0 then v :: r.1 else r.1, r.2)
      | _ => none

theorem countDown_cons_of_ne {u v n : Nat} (hv : v ≠ u) (vs : List Nat) {pending : List Nat}
    (hn : pending[v]? = some (n + 1)) :
    countDown u (v :: vs) pending =
      (if n = 0 then v :: (countDown u vs (pending.set v n)).1
        else (countDown u vs (pending.set v n)).1, (countDown u vs (pending.set v n)).2) := by
  cases n <;> simp [countDown, hv, hn]

theorem countDown_of_countDown? {u : Nat} {vs pending : List Nat} {r : List Nat × List Nat}
    (h : countDown? u vs pending = some r) : countDown u vs pending = r := by
  induction vs generalizing pending r with
  | nil => exact Option.some.inj h
  | cons v vs ih =>
    unfold countDown? at h
    split at h
    · rename_i hv
      rw [countDown, if_pos hv]
      exact ih h
    · rename_i hv
      split at h
      · rename_i n hn
        obtain ⟨r', hr', rfl⟩ := Option.map_eq_some_iff.mp h
        rw [countDown_cons_of_ne hv vs hn, ih hr']
      · cases h

/-- What counting the entries of `vs` down, apart from `u`, comes to. -/
structure CountedDown (u : Nat) (vs pending : List Nat) (r : List Nat × List Nat) : Prop where
  checked : countDown? u vs pending = some r
  own : r.2.getD u 0 = pending.getD u 0
  counts : ∀ w, w ≠ u → r.2.getD w 0 + vs.count w = pending.getD w 0
  nodup : r.1.Nodup
  freed : ∀ w, w ∈ r.1 ↔ w ≠ u ∧ w ∈ vs ∧ r.2.getD w 0 = 0

theorem countedDown_nil (u : Nat) (pending : List Nat) : CountedDown u [] pending ([], pending) := by
  constructor
  · rfl
  · rfl
  · intro w _
    rfl
  · exact .nil
  · simp

theorem CountedDown.cons_own {u : Nat} {vs pending : List Nat} {r : List Nat × List Nat}
    (h : CountedDown u vs pending r) : CountedDown u (u :: vs) pending r := by
  constructor
  · rw [countDown?, if_pos rfl]
    exact h.checked
  · exact h.own
  · intro w hw
    rw [List.count_cons_of_ne (Ne.symm hw)]
    exact h.counts w hw
  · exact h.nodup
  · intro w
    rw [h.freed w, List.mem_cons]
    tauto

theorem getD_set {xs : List Nat} {v : Nat} (hv : v < xs.length) (n w : Nat) :
    (xs.set v n).getD w 0 = if w = v then n else xs.getD w 0 := by
  rw [List.getD_eq_getElem?_getD, List.getElem?_set, List.getD_eq_getElem?_getD]
  by_cases hw : w = v
  · subst hw
    simp [hv]
  · rw [if_neg (Ne.symm hw), if_neg hw]

theorem CountedDown.cons {u v n : Nat} {vs pending : List Nat} {r : List Nat × List Nat}
    (h : CountedDown u vs (pending.set v n) r) (hv : v ≠ u) (hn : pending[v]? = some (n + 1)) :
    CountedDown u (v :: vs) pending (if n = 0 then v :: r.1 else r.1, r.2) := by
  obtain ⟨hlt, hget⟩ := List.getElem?_eq_some_iff.mp hn
  have hold : pending.getD v 0 = n + 1 := by rw [List.getD_eq_getElem _ _ hlt, hget]
  have hset := getD_set hlt n
  have hleft : r.2.getD v 0 + vs.count v = n := by
    rw [h.counts v hv, hset, if_pos rfl]
  constructor
  · rw [countDown?, if_neg hv, hn]
    simp only [h.checked, Option.map_some]
  · rw [h.own, hset, if_neg (Ne.symm hv)]
  · intro w hw
    by_cases hwv : w = v
    · subst hwv
      rw [List.count_cons_self, hold]
      dsimp only
      omega
    · rw [List.count_cons_of_ne (Ne.symm hwv), h.counts w hw, hset, if_neg hwv]
  · -- at zero no entry for `v` is left in `vs`
    split
    · refine List.nodup_cons.mpr ⟨?_, h.nodup⟩
      intro hmem
      have hpos := List.count_pos_iff.mpr ((h.freed v).mp hmem).2.1
      omega
    · exact h.nodup
  · intro w
    by_cases hwv : w = v
    · subst hwv
      by_cases hzero : n = 0
      · simp only [if_pos hzero, List.mem_cons_self, true_and, true_iff]
        exact ⟨hv, by omega⟩
      · rw [if_neg hzero, h.freed w]
        have hmem : r.2.getD w 0 = 0 → w ∈ vs := fun h0 => List.count_pos_iff.mp (by omega)
        simp only [List.mem_cons_self, true_and]
        tauto
    · have hcons : (w ∈ if n = 0 then v :: r.1 else r.1) ↔ w ∈ r.1 := by
        split <;> simp [hwv]
      rw [hcons, h.freed w, List.mem_cons, or_iff_right hwv]

theorem countedDown {u : Nat} {vs pending : List Nat}
    (h : ∀ w, w ≠ u → vs.count w ≤ pending.getD w 0) :
    CountedDown u vs pending (countDown u vs pending) := by
  induction vs generalizing pending with
  | nil => exact countedDown_nil u pending
  | cons v vs ih =>
    by_cases hv : v = u
    · subst hv
      rw [countDown, if_pos rfl]
      apply CountedDown.cons_own
      apply ih
      intro w hw
      have hcount := h w hw
      rwa [List.count_cons_of_ne (Ne.symm hw)] at hcount
    · have hone := h v hv
      rw [List.count_cons_self] at hone
      have hlt : v < pending.length := by
        by_contra hge
        rw [List.getD_eq_default _ _ (not_lt.mp hge)] at hone
        omega
      obtain ⟨n, hn⟩ : ∃ n, pending.getD v 0 = n + 1 := ⟨pending.getD v 0 - 1, by omega⟩
      have hsome : pending[v]? = some (n + 1) := by
        rw [← hn, List.getD_eq_getElem _ _ hlt, List.getElem?_eq_getElem hlt]
      rw [countDown_cons_of_ne hv vs hsome]
      refine CountedDown.cons (ih ?_) hv hsome
      intro w hw
      have hcount := h w hw
      rw [getD_set hlt]
      by_cases hwv : w = v
      · subst hwv
        rw [if_pos rfl]
        omega
      · rw [if_neg hwv]
        rwa [List.count_cons_of_ne (Ne.symm hwv)] at hcount

def release? (successors : Nat → List Nat) : List Nat → List Nat → Option (List Nat)
  | [], _ => some []
  | v :: queue, pending =>
    match _h : countDown? v (successors v) pending with
    | none => none
    | some r => (release? successors (queue ++ r.1) r.2).map (v :: ·)
termination_by queue pending => queue.length + linkCount pending
decreasing_by
  have hcount := linkCount_countDown v (successors v) pending
  rw [countDown_of_countDown? _h] at hcount
  simp only [List.length_append, List.length_cons]
  omega

end Ranks

namespace Diagram

variable {α : Type}

def rankOrder? (d : Diagram α) : Option (List Nat) :=
  let pending := d.indegrees
  let free := d.indices.filter fun v => pending.getD v 0 == 0
  (Ranks.release? d.successors free pending).map fun released =>
    released ++ d.indices.filter fun v => !released.contains v

def released (d : Diagram α) : List Nat :=
  Ranks.release d.successors (d.indices.filter fun v => d.indegrees.getD v 0 == 0) d.indegrees

/-- A cycle through several boxes leads to box `v`, or goes through it. -/
def Behind (d : Diagram α) (v : Nat) : Prop :=
  ∃ c, TransGen d.Leads c c ∧ ReflTransGen d.Leads c v

/-- Links into box `v` from other boxes that are not done. -/
def waiting (d : Diagram α) (done : List Nat) (v : Nat) : Nat :=
  (d.predecessors v).countP fun u => u ≠ v ∧ u ∉ done

variable {d : Diagram α}

theorem waiting_eq_zero (hd : d.Linked) {done : List Nat} {v : Nat} :
    d.waiting done v = 0 ↔ ∀ u, d.Leads u v → u ∈ done := by
  unfold waiting Leads
  simp only [List.countP_eq_zero, hd.mem_predecessors, decide_eq_true_eq, not_and, not_not]
  constructor
  · intro h u hleads
    exact h u hleads.2 hleads.1
  · intro h u huv hne
    exact h u ⟨hne, huv⟩

theorem waiting_snoc_own (done : List Nat) (v : Nat) :
    d.waiting (done ++ [v]) v = d.waiting done v := by
  unfold waiting
  apply List.countP_congr
  intro u _
  simp only [List.mem_append, List.mem_singleton, decide_eq_true_eq]
  tauto

theorem waiting_snoc {done : List Nat} {u v : Nat} (hu : u ∉ done) (huv : u ≠ v) :
    d.waiting (done ++ [u]) v + (d.predecessors v).count u = d.waiting done v := by
  unfold waiting
  induction d.predecessors v with
  | nil => rfl
  | cons w ws ih =>
    rw [List.countP_cons, List.countP_cons, List.count_cons, ← ih]
    by_cases hw : w = u
    · subst hw
      simp [hu, huv]
      omega
    · simp [hw]
      omega

theorem predecessors_of_le {v : Nat} (hv : d.count ≤ v) : d.predecessors v = [] := by
  unfold predecessors
  rw [Array.getElem?_eq_none hv]
  rfl

theorem getD_indegrees (v : Nat) : d.indegrees.getD v 0 = d.waiting [] v := by
  unfold indegrees waiting indices
  by_cases hv : v < d.count
  · rw [List.getD_eq_getElem _ _ (by simpa using hv), List.getElem_map, List.getElem_range,
      List.countP_eq_length_filter]
    congr 1
    apply List.filter_congr
    intro u _
    simp only [List.not_mem_nil, not_false_eq_true, and_true, ne_eq, decide_not]
    rfl
  · rw [List.getD_eq_default _ _ (by simpa using hv), predecessors_of_le (not_lt.mp hv)]
    rfl

/-- What holds while boxes are taken: each count is that of the links from boxes not yet done, and
the queue holds those that wait for none. -/
structure Frontier (d : Diagram α) (done queue pending : List Nat) : Prop where
  counts : ∀ v, pending.getD v 0 = d.waiting done v
  nodup : (done ++ queue).Nodup
  free : ∀ v, v ∈ done ++ queue ↔ v < d.count ∧ d.waiting done v = 0
  ordered : done.Pairwise fun v w => ¬d.Leads w v

theorem frontier_first (d : Diagram α) :
    d.Frontier [] (d.indices.filter fun v => d.indegrees.getD v 0 == 0) d.indegrees := by
  constructor
  · exact getD_indegrees
  · exact List.nodup_range.filter _
  · intro v
    rw [List.nil_append, List.mem_filter, getD_indegrees, beq_iff_eq, indices, List.mem_range]
  · exact .nil

theorem Frontier.countedDown {done queue pending : List Nat} {v : Nat} (hd : d.Linked)
    (h : d.Frontier done (v :: queue) pending) :
    Ranks.CountedDown v (d.successors v) pending (Ranks.countDown v (d.successors v) pending) := by
  have hv : v ∉ done := fun hv => List.disjoint_of_nodup_append h.nodup hv List.mem_cons_self
  apply Ranks.countedDown
  intro w hw
  rw [h.counts, hd.count_eq, ← waiting_snoc hv (Ne.symm hw)]
  omega

theorem Frontier.step {done queue pending : List Nat} {v : Nat} {r : List Nat × List Nat}
    (hd : d.Linked) (h : d.Frontier done (v :: queue) pending)
    (hr : Ranks.CountedDown v (d.successors v) pending r) :
    d.Frontier (done ++ [v]) (queue ++ r.1) r.2 := by
  have hv : v ∉ done := fun hv => List.disjoint_of_nodup_append h.nodup hv List.mem_cons_self
  have hcounts : ∀ w, r.2.getD w 0 = d.waiting (done ++ [v]) w := by
    intro w
    by_cases hw : w = v
    · subst hw
      rw [hr.own, h.counts, waiting_snoc_own]
    · have hold := hr.counts w hw
      rw [h.counts, hd.count_eq, ← waiting_snoc hv (Ne.symm hw)] at hold
      omega
  have hlist : done ++ [v] ++ queue = done ++ v :: queue := by simp
  -- what is freed still waited for `v`
  have hfreed : ∀ w ∈ r.1, w ∉ done ++ v :: queue := by
    intro w hw hmem
    obtain ⟨hne, hlinked, -⟩ := (hr.freed w).mp hw
    have hzero := ((h.free w).mp hmem).2
    have hleads : d.Leads v w := ⟨Ne.symm hne, hd.mem_successors.mp hlinked⟩
    exact hv ((waiting_eq_zero hd).mp hzero v hleads)
  constructor
  · exact hcounts
  · rw [← List.append_assoc, hlist]
    refine h.nodup.append hr.nodup ?_
    intro w hw hmem
    exact hfreed w hmem hw
  · intro w
    rw [← List.append_assoc, hlist, List.mem_append, h.free w, hr.freed w, hcounts w]
    constructor
    · rintro (⟨hw, hzero⟩ | ⟨-, hlinked, hzero⟩)
      · refine ⟨hw, (waiting_eq_zero hd).mpr fun u hleads => ?_⟩
        exact List.mem_append_left _ ((waiting_eq_zero hd).mp hzero u hleads)
      · exact ⟨(hd.lt (hd.mem_successors.mp hlinked)).2, hzero⟩
    · rintro ⟨hw, hzero⟩
      by_cases hbefore : d.waiting done w = 0
      · exact .inl ⟨hw, hbefore⟩
      · right
        by_cases hwv : w = v
        · subst hwv
          rw [waiting_snoc_own] at hzero
          exact absurd hzero hbefore
        · have hold := waiting_snoc (d := d) hv (Ne.symm hwv)
          rw [← hd.count_eq] at hold
          exact ⟨hwv, List.count_pos_iff.mp (by omega), hzero⟩
  · rw [List.pairwise_append]
    refine ⟨h.ordered, List.pairwise_singleton _ _, ?_⟩
    intro u hu w hw hleads
    obtain rfl := List.mem_singleton.mp hw
    have hzero := ((h.free u).mp (List.mem_append_left _ hu)).2
    exact hv ((waiting_eq_zero hd).mp hzero w hleads)

theorem Frontier.run {done queue pending : List Nat} (hd : d.Linked)
    (h : d.Frontier done queue pending) :
    Ranks.release? d.successors queue pending = some (Ranks.release d.successors queue pending) ∧
      ∃ left, d.Frontier (done ++ Ranks.release d.successors queue pending) [] left := by
  fun_induction Ranks.release d.successors queue pending generalizing done with
  | case1 pending =>
    refine ⟨by rw [Ranks.release?], pending, ?_⟩
    rwa [List.append_nil]
  | case2 v queue pending r =>
    rename_i ih
    have hr : Ranks.CountedDown v (d.successors v) pending r := h.countedDown hd
    obtain ⟨hchecked, left, hleft⟩ := ih (h.step hd hr)
    constructor
    · rw [Ranks.release?]
      split
      · rename_i hnone
        rw [hr.checked] at hnone
        cases hnone
      · rename_i r hsome
        rw [hr.checked] at hsome
        obtain rfl := Option.some.inj hsome
        rw [hchecked, Option.map_some]
    · rw [List.append_assoc] at hleft
      exact ⟨left, hleft⟩

theorem released_frontier (hd : d.Linked) : ∃ left, d.Frontier d.released [] left :=
  (frontier_first d).run hd |>.2

theorem rankOrder?_eq (hd : d.Linked) : d.rankOrder? = some d.rankOrder := by
  have hrun := ((frontier_first d).run hd).1
  unfold rankOrder? rankOrder
  simp only [hrun, Option.map_some]

theorem mem_released_iff (hd : d.Linked) {v : Nat} :
    v ∈ d.released ↔ v < d.count ∧ ∀ u, d.Leads u v → u ∈ d.released := by
  obtain ⟨left, h⟩ := released_frontier hd
  have hfree := h.free v
  rwa [List.append_nil, waiting_eq_zero hd] at hfree

theorem released_ordered (hd : d.Linked) : d.released.Pairwise fun v w => ¬d.Leads w v := by
  obtain ⟨left, h⟩ := released_frontier hd
  exact h.ordered

theorem nodup_released (hd : d.Linked) : d.released.Nodup := by
  obtain ⟨left, h⟩ := released_frontier hd
  have hnodup := h.nodup
  rwa [List.append_nil] at hnodup

theorem rankOrder_eq (d : Diagram α) : d.rankOrder =
    d.released ++ d.indices.filter fun v => !d.released.contains v := rfl

theorem rankOrder_perm (hd : d.Linked) : d.rankOrder.Perm d.indices := by
  have hrest : (d.indices.filter fun v => !d.released.contains v).Nodup :=
    List.nodup_range.filter _
  have hall : d.indices.Nodup := List.nodup_range
  rw [rankOrder_eq, List.perm_ext_iff_of_nodup _ hall]
  · intro v
    rw [List.mem_append, List.mem_filter, Bool.not_eq_true', ← Bool.not_eq_true,
      List.contains_iff_mem, indices, List.mem_range]
    have hlt : v ∈ d.released → v < d.count := fun hv => ((mem_released_iff hd).mp hv).1
    tauto
  · refine (nodup_released hd).append hrest ?_
    intro v hv hmem
    have hnot := (List.mem_filter.mp hmem).2
    rw [Bool.not_eq_true', ← Bool.not_eq_true, List.contains_iff_mem] at hnot
    exact hnot hv

theorem idxOf_lt (hd : d.Linked) {u v : Nat} (h : TransGen d.Leads u v) (hv : v ∈ d.released) :
    u ∈ d.released ∧ d.released.idxOf u < d.released.idxOf v := by
  have hone : ∀ {x y}, d.Leads x y → y ∈ d.released →
      x ∈ d.released ∧ d.released.idxOf x < d.released.idxOf y := by
    intro x y hxy hy
    have hx := ((mem_released_iff hd).mp hy).2 x hxy
    refine ⟨hx, ?_⟩
    by_contra hle
    have hne : d.released.idxOf x ≠ d.released.idxOf y :=
      fun heq => hxy.1 ((List.idxOf_inj hx).mp heq)
    have hlt := List.pairwise_iff_getElem.mp (released_ordered hd) _ _
      (List.idxOf_lt_length_of_mem hy) (List.idxOf_lt_length_of_mem hx) (by omega)
    rw [List.getElem_idxOf, List.getElem_idxOf] at hlt
    exact hlt hxy
  induction h with
  | single hxy => exact hone hxy hv
  | tail _ hyz ih =>
    obtain ⟨hy, hlt⟩ := hone hyz hv
    obtain ⟨hx, hlt'⟩ := ih hy
    exact ⟨hx, hlt'.trans hlt⟩

theorem not_behind_of_released (hd : d.Linked) {v : Nat} (hv : v ∈ d.released) : ¬d.Behind v := by
  rintro ⟨c, hcycle, hpath⟩
  have hc : c ∈ d.released := by
    rcases Relation.reflTransGen_iff_eq_or_transGen.mp hpath with rfl | hpath
    · exact hv
    · exact (idxOf_lt hd hpath hv).1
  exact lt_irrefl _ (idxOf_lt hd hcycle hc).2

/-- Behind no cycle, leading on is well founded. -/
theorem released_of_not_behind (hd : d.Linked) {v : Nat} (hv : v < d.count)
    (hfree : ¬d.Behind v) : v ∈ d.released := by
  let Above := {u // ReflTransGen d.Leads u v}
  let before : Above → Above → Prop := fun a b => TransGen d.Leads a.1 b.1
  have hinside : ∀ u, ReflTransGen d.Leads u v → u < d.count := by
    intro u hu
    rcases Relation.ReflTransGen.cases_head hu with rfl | ⟨w, huw, -⟩
    · exact hv
    · exact (hd.lt_of_leads huw).1
  have : Finite Above := (Set.finite_lt_nat d.count).subset hinside
  have : IsTrans Above before := ⟨fun _ _ _ hab hbc => hab.trans hbc⟩
  have : Std.Irrefl before := ⟨fun a ha => hfree ⟨a.1, ha, a.2⟩⟩
  have hwf : WellFounded before := Finite.wellFounded_of_trans_of_irrefl _
  have hall : ∀ a : Above, a.1 ∈ d.released := by
    intro a
    induction a using hwf.induction with
    | _ a ih =>
      refine (mem_released_iff hd).mpr ⟨hinside a.1 a.2, ?_⟩
      intro u hu
      exact ih ⟨u, a.2.head hu⟩ (.single hu)
  exact hall ⟨v, .refl⟩

theorem mem_released_iff_not_behind (hd : d.Linked) {v : Nat} :
    v ∈ d.released ↔ v < d.count ∧ ¬d.Behind v := by
  constructor
  · intro hv
    exact ⟨((mem_released_iff hd).mp hv).1, not_behind_of_released hd hv⟩
  · rintro ⟨hv, hfree⟩
    exact released_of_not_behind hd hv hfree

/-- A box leads to no earlier one, except behind a cycle, where the order is that of the indices. -/
theorem rankOrder_pairwise (hd : d.Linked) :
    d.rankOrder.Pairwise fun v w => d.Leads w v → d.Behind w ∧ v < w := by
  have hrest : ∀ w, w ∈ (d.indices.filter fun v => !d.released.contains v) ↔
      w < d.count ∧ d.Behind w := by
    intro w
    rw [List.mem_filter, Bool.not_eq_true', ← Bool.not_eq_true, List.contains_iff_mem,
      mem_released_iff_not_behind hd, indices, List.mem_range]
    tauto
  rw [rankOrder_eq, List.pairwise_append]
  refine ⟨?_, ?_, ?_⟩
  · exact (released_ordered hd).imp fun hnot hleads => absurd hleads hnot
  · have hsorted := (List.pairwise_lt_range (n := d.count)).filter fun v => !d.released.contains v
    refine hsorted.imp_of_mem ?_
    intro v w _ hw hlt _
    exact ⟨((hrest w).mp hw).2, hlt⟩
  · intro v hv w hw hleads
    have hw' := ((mem_released_iff hd).mp hv).2 w hleads
    exact absurd ((hrest w).mp hw).2 (not_behind_of_released hd hw')

end Diagram

end GraphScribe
