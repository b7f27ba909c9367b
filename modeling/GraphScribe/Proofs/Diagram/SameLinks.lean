import GraphScribe.Placement.Ranks
import GraphScribe.Proofs.Diagram.Ascending
import GraphScribe.Proofs.Placement.BreadthFirst

/-! # Diagrams with the same links

Ranks look at the links between different boxes, each as often as it is there, and leave out loops. A
search does not even notice how often a link is there: of the boxes that it could go on to it takes
those that it has not met, each at its first mention. Diagrams that agree so far have the same ranks or
the same spanning forest and the same neighbours. -/
namespace GraphScribe

def others (v : Nat) (ws : List Nat) : List Nat := ws.filter (· != v)

/-- The entries that are not among `seen`, each at its first mention. -/
def fresh : List Nat → List Nat → List Nat
  | _, [] => []
  | seen, w :: ws => if w ∈ seen then fresh seen ws else w :: fresh (w :: seen) ws

theorem mem_fresh {seen ws : List Nat} {w : Nat} : w ∈ fresh seen ws ↔ w ∈ ws ∧ w ∉ seen := by
  induction ws generalizing seen with
  | nil => simp [fresh]
  | cons u ws ih =>
    by_cases hu : u ∈ seen
    · rw [fresh, if_pos hu, ih, List.mem_cons]
      constructor
      · rintro ⟨hw, hseen⟩
        exact ⟨.inr hw, hseen⟩
      · rintro ⟨rfl | hw, hseen⟩
        · exact absurd hu hseen
        · exact ⟨hw, hseen⟩
    · rw [fresh, if_neg hu, List.mem_cons, ih, List.mem_cons, List.mem_cons, not_or]
      by_cases hwu : w = u
      · simp [hwu, hu]
      · simp [hwu]

theorem fresh_others {seen : List Nat} {v : Nat} (hv : v ∈ seen) (ws : List Nat) :
    fresh seen (others v ws) = fresh seen ws := by
  induction ws generalizing seen with
  | nil => rfl
  | cons w ws ih =>
    unfold others at ih ⊢
    by_cases hwv : w = v
    · rw [List.filter_cons_of_neg (by simpa using hwv), ih hv, fresh, if_pos (hwv ▸ hv)]
    · rw [List.filter_cons_of_pos (by simpa using hwv), fresh, fresh, ih hv,
        ih (List.mem_cons_of_mem w hv)]

theorem fresh_sublist (seen ws : List Nat) : (fresh seen ws).Sublist ws := by
  induction ws generalizing seen with
  | nil => exact .slnil
  | cons w ws ih =>
    by_cases hw : w ∈ seen
    · rw [fresh, if_pos hw]
      exact (ih seen).cons w
    · rw [fresh, if_neg hw]
      exact (ih (w :: seen)).cons_cons w

theorem nodup_fresh (seen ws : List Nat) : (fresh seen ws).Nodup := by
  induction ws generalizing seen with
  | nil => exact .nil
  | cons w ws ih =>
    by_cases hw : w ∈ seen
    · rw [fresh, if_pos hw]
      exact ih seen
    · rw [fresh, if_neg hw, List.nodup_cons]
      refine ⟨?_, ih (w :: seen)⟩
      intro hmem
      exact (mem_fresh.mp hmem).2 List.mem_cons_self

theorem fresh_congr {ws ws' : List Nat} (hws : ws.Pairwise (· ≤ ·)) (hws' : ws'.Pairwise (· ≤ ·))
    {seen : List Nat} (h : ∀ w, w ∉ seen → (w ∈ ws ↔ w ∈ ws')) : fresh seen ws = fresh seen ws' := by
  have hlt : ∀ {us : List Nat}, us.Pairwise (· ≤ ·) → (fresh seen us).Pairwise (· < ·) := by
    intro us hus
    have hboth := (hus.sublist (fresh_sublist seen us)).and (nodup_fresh seen us)
    exact hboth.imp fun hvw => lt_of_le_of_ne hvw.1 hvw.2
  apply (hlt hws).eq_of_mem_iff (hlt hws')
  intro w
  rw [mem_fresh, mem_fresh]
  exact and_congr_left (h w)

theorem others_congr {v : Nat} {ws ws' : List Nat} (hws : ws.Pairwise (· ≤ ·))
    (hws' : ws'.Pairwise (· ≤ ·)) (h : ∀ w, w ≠ v → ws.count w = ws'.count w) :
    others v ws = others v ws' := by
  have hperm : (others v ws).Perm (others v ws') := by
    rw [List.perm_iff_count]
    intro w
    by_cases hw : w = v
    · rw [hw, others, others, List.count_eq_zero_of_not_mem (by simp),
        List.count_eq_zero_of_not_mem (by simp)]
    · simp [others, hw, h w hw]
  exact hperm.eq_of_pairwise' (hws.filter _) (hws'.filter _)

namespace Forest

section Enrol

variable (parent depth : Nat) {unseen : List Nat}

/-- A candidate counts at its first mention, and only if it is to be seen yet. -/
theorem enrol_fresh (cs : List Nat) (hu : unseen.Nodup) {seen : List Nat}
    (hseen : ∀ w ∈ seen, w ∉ unseen) :
    enrol parent depth (fresh seen cs) unseen = enrol parent depth cs unseen := by
  induction cs generalizing seen unseen with
  | nil => rfl
  | cons c cs ih =>
    by_cases hc : c ∈ seen
    · rw [fresh, if_pos hc, ih hu hseen, enrol, if_neg (by simpa using hseen c hc)]
    · rw [fresh, if_neg hc, enrol, enrol]
      by_cases hcu : c ∈ unseen
      · have hseen' : ∀ w ∈ c :: seen, w ∉ unseen.erase c := by
          rw [List.forall_mem_cons]
          refine ⟨hu.not_mem_erase, ?_⟩
          intro w hw hmem
          exact hseen w hw (List.mem_of_mem_erase hmem)
        rw [if_pos (by simpa using hcu), if_pos (by simpa using hcu), ih (hu.erase c) hseen']
      · have hseen' : ∀ w ∈ c :: seen, w ∉ unseen := List.forall_mem_cons.mpr ⟨hcu, hseen⟩
        rw [if_neg (by simpa using hcu), if_neg (by simpa using hcu), ih hu hseen']

theorem enrol_congr {cs cs' : List Nat} {v : Nat} (h : fresh [v] cs = fresh [v] cs')
    (hu : unseen.Nodup) (hv : v ∉ unseen) :
    enrol parent depth cs unseen = enrol parent depth cs' unseen := by
  have hseen : ∀ w ∈ [v], w ∉ unseen := by simpa using hv
  rw [← enrol_fresh parent depth cs hu hseen, h, enrol_fresh parent depth cs' hu hseen]

theorem enrol_append (as bs : List Nat) (unseen : List Nat) :
    enrol parent depth (as ++ bs) unseen =
      ((enrol parent depth as unseen).1 ++
          (enrol parent depth bs (enrol parent depth as unseen).2).1,
        (enrol parent depth bs (enrol parent depth as unseen).2).2) := by
  induction as generalizing unseen with
  | nil => rfl
  | cons a as ih =>
    rw [List.cons_append, enrol, enrol]
    split
    · rw [ih]
      rfl
    · exact ih unseen

theorem enrol_left (cs : List Nat) (hu : unseen.Nodup) :
    (enrol parent depth cs unseen).2.Nodup ∧
      (∀ v ∈ (enrol parent depth cs unseen).2, v ∈ unseen) ∧
      ∀ s ∈ (enrol parent depth cs unseen).1, s.node ∉ (enrol parent depth cs unseen).2 := by
  have hperm := (enrolled parent depth cs hu).perm
  have hnodup := hperm.nodup_iff.mpr hu
  refine ⟨hnodup.sublist (List.sublist_append_right _ _), ?_, ?_⟩
  · intro v hv
    exact hperm.mem_iff.mp (List.mem_append_right _ hv)
  · intro s hs
    exact List.disjoint_of_nodup_append hnodup (List.mem_map_of_mem hs)

end Enrol

/-- From a box that has been met, a search goes on in the same way. -/
def SameNext (next next' : Nat → List Nat) : Prop :=
  ∀ v depth (unseen : List Nat), unseen.Nodup → v ∉ unseen →
    enrol v depth (next v) unseen = enrol v depth (next' v) unseen

variable {next next' : Nat → List Nat} {queue : List Seat} {unseen : List Nat}

theorem grow_left (hu : unseen.Nodup) : (grow next queue unseen).2.Nodup := by
  fun_induction grow next queue unseen with
  | case1 => exact hu
  | case2 seat _ _ r _ ih => exact ih (enrol_left seat.node (seat.depth + 1) _ hu).1

theorem grow_congr (h : SameNext next next') (hu : unseen.Nodup)
    (hqueue : ∀ s ∈ queue, s.node ∉ unseen) :
    grow next queue unseen = grow next' queue unseen := by
  fun_induction grow next queue unseen with
  | case1 => rw [grow]
  | case2 seat queue unseen r more ih =>
    obtain ⟨hseat, hqueue⟩ := List.forall_mem_cons.mp hqueue
    obtain ⟨hr, hsubset, hnew⟩ := enrol_left seat.node (seat.depth + 1) (next seat.node) hu
    have hrest : ∀ s ∈ queue ++ r.1, s.node ∉ r.2 := by
      intro s hs
      rcases List.mem_append.mp hs with hs | hs
      · exact fun hmem => hqueue s hs (hsubset _ hmem)
      · exact hnew s hs
    rw [grow, ← h seat.node (seat.depth + 1) unseen hu hseat, ← ih hr hrest]

theorem plant_congr (h : SameNext next next') (starts : List Nat) (hu : unseen.Nodup) :
    plant next starts unseen = plant next' starts unseen := by
  induction starts generalizing unseen with
  | nil => rfl
  | cons s starts ih =>
    have hroot : ∀ t ∈ [(⟨s, none, 0⟩ : Seat)], t.node ∉ unseen.erase s := by
      simpa using hu.not_mem_erase
    have htree := grow_congr h (hu.erase s) hroot
    by_cases hs : s ∈ unseen
    · rw [plant, plant, if_pos (by simpa using hs), if_pos (by simpa using hs), ← htree]
      exact congrArg (_ ++ ·) (ih (grow_left (hu.erase s)))
    · rw [plant, plant, if_neg (by simpa using hs), if_neg (by simpa using hs), ih hu]

end Forest

namespace Ranks

theorem countDown_others (v : Nat) (ws pending : List Nat) :
    countDown v (others v ws) pending = countDown v ws pending := by
  unfold others
  induction ws generalizing pending with
  | nil => rfl
  | cons w ws ih =>
    by_cases hw : w = v
    · rw [List.filter_cons_of_neg (by simpa using hw), ih, countDown, if_pos hw]
    · rw [List.filter_cons_of_pos (by simpa using hw), countDown, countDown]
      simp only [ih]

variable {successors successors' : Nat → List Nat}

theorem release_congr (h : ∀ v, others v (successors v) = others v (successors' v))
    (queue pending : List Nat) :
    release successors queue pending = release successors' queue pending := by
  fun_induction release successors queue pending with
  | case1 => rw [release]
  | case2 v queue pending r ih =>
    have hcount : countDown v (successors' v) pending = r := by
      rw [← countDown_others, ← h v, countDown_others]
    rw [release, hcount, ih]

theorem raise_congr (h : ∀ v, others v (successors v) = others v (successors' v)) :
    raise successors = raise successors' := by
  funext ranks v
  exact congrArg (List.foldl _ ranks) (h v)

end Ranks

namespace Diagram

variable {α : Type} {d e : Diagram α}

/-- The diagrams have the same links between different boxes, each as often. -/
structure SameLinks (d e : Diagram α) : Prop where
  count : d.count = e.count
  isRoot : d.isRoot = e.isRoot
  successors : ∀ v, others v (d.successors v) = others v (e.successors v)
  predecessors : ∀ v, others v (d.predecessors v) = others v (e.predecessors v)

/-- The diagrams have links between the same boxes. -/
structure SameWays (d e : Diagram α) : Prop where
  count : d.count = e.count
  isRoot : d.isRoot = e.isRoot
  successors : ∀ v, fresh [v] (d.successors v) = fresh [v] (e.successors v)
  predecessors : ∀ v, fresh [v] (d.predecessors v) = fresh [v] (e.predecessors v)

theorem SameLinks.refl (d : Diagram α) : d.SameLinks d :=
  ⟨rfl, rfl, fun _ => rfl, fun _ => rfl⟩

theorem SameLinks.sameWays (h : d.SameLinks e) : d.SameWays e where
  count := h.count
  isRoot := h.isRoot
  successors v := by
    rw [← fresh_others (List.mem_singleton_self v), h.successors,
      fresh_others (List.mem_singleton_self v)]
  predecessors v := by
    rw [← fresh_others (List.mem_singleton_self v), h.predecessors,
      fresh_others (List.mem_singleton_self v)]

def properEnds (d : Diagram α) : List (Nat × Nat) := d.ends.filter fun ends => ends.1 != ends.2

section Built

variable [Scalar α] (hd : d.Built) (he : e.Built) (hcount : d.count = e.count)
  (hroot : d.isRoot = e.isRoot)

include hd he hcount hroot

theorem Built.sameWays (h : ∀ v w, v ≠ w → (d.Links v w ↔ e.Links v w)) : d.SameWays e where
  count := hcount
  isRoot := hroot
  successors v := by
    apply fresh_congr (hd.ascending.successors v) (he.ascending.successors v)
    intro w hw
    rw [hd.linked.mem_successors, he.linked.mem_successors]
    exact h v w (Ne.symm (by simpa using hw))
  predecessors v := by
    apply fresh_congr (hd.ascending.predecessors v) (he.ascending.predecessors v)
    intro w hw
    rw [hd.linked.mem_predecessors, he.linked.mem_predecessors]
    exact h w v (by simpa using hw)

theorem Built.sameLinks (h : d.properEnds = e.properEnds) : d.SameLinks e := by
  have hends : ∀ v w, v ≠ w → d.ends.count (v, w) = e.ends.count (v, w) := by
    intro v w hne
    have hproper : ∀ f : Diagram α, f.properEnds.count (v, w) = f.ends.count (v, w) :=
      fun f => List.count_filter (by simpa using hne)
    rw [← hproper d, ← hproper e, h]
  constructor
  · exact hcount
  · exact hroot
  · intro v
    apply others_congr (hd.ascending.successors v) (he.ascending.successors v)
    intro w hw
    rw [hd.linked.count_successors, he.linked.count_successors, hends v w (Ne.symm hw)]
  · intro v
    apply others_congr (hd.ascending.predecessors v) (he.ascending.predecessors v)
    intro w hw
    rw [hd.linked.count_predecessors, he.linked.count_predecessors, hends w v hw]

end Built

theorem SameLinks.ranks_eq (h : d.SameLinks e) : d.ranks = e.ranks := by
  have hindices : d.indices = e.indices := congrArg List.range h.count
  have hindegrees : d.indegrees = e.indegrees := by
    unfold indegrees
    rw [hindices]
    exact List.map_congr_left fun v _ => congrArg List.length (h.predecessors v)
  have horder : d.rankOrder = e.rankOrder := by
    unfold rankOrder
    simp only [hindices, hindegrees, Ranks.release_congr h.successors]
  unfold ranks
  rw [horder, h.count, Ranks.raise_congr h.successors]

namespace SameWays

theorem mem_successors (h : d.SameWays e) {v w : Nat} (hne : w ≠ v) :
    w ∈ d.successors v ↔ w ∈ e.successors v := by
  have hmem : w ∈ fresh [v] (d.successors v) ↔ w ∈ fresh [v] (e.successors v) := by
    rw [h.successors]
  simpa [mem_fresh, hne] using hmem

theorem mem_predecessors (h : d.SameWays e) {v w : Nat} (hne : w ≠ v) :
    w ∈ d.predecessors v ↔ w ∈ e.predecessors v := by
  have hmem : w ∈ fresh [v] (d.predecessors v) ↔ w ∈ fresh [v] (e.predecessors v) := by
    rw [h.predecessors]
  simpa [mem_fresh, hne] using hmem

theorem roots_eq (h : d.SameWays e) : d.roots = e.roots := by
  have hindices : d.indices = e.indices := congrArg List.range h.count
  have hsource : ∀ v, (d.predecessors v).all (· == v) = (e.predecessors v).all (· == v) := by
    intro v
    rw [Bool.eq_iff_iff, List.all_eq_true, List.all_eq_true]
    constructor
    · intro hall w hw
      by_contra hne
      exact hne (hall w ((h.mem_predecessors (by simpa using hne)).mpr hw))
    · intro hall w hw
      by_contra hne
      exact hne (hall w ((h.mem_predecessors (by simpa using hne)).mp hw))
  unfold roots
  simp only [hindices, h.isRoot, hsource]

theorem sameNext (h : d.SameWays e) : Forest.SameNext d.reachable e.reachable := by
  intro v depth unseen hu hv
  obtain ⟨hleft, hsubset, -⟩ := Forest.enrol_left v depth (e.successors v) hu
  have hsuccessors := Forest.enrol_congr v depth (h.successors v) hu hv
  have hpredecessors := Forest.enrol_congr v depth (h.predecessors v) hleft
    fun hmem => hv (hsubset v hmem)
  rw [reachable, reachable, Forest.enrol_append, Forest.enrol_append, hsuccessors, hpredecessors]

theorem forest_eq (h : d.SameWays e) : d.forest = e.forest := by
  have hindices : d.indices = e.indices := congrArg List.range h.count
  unfold forest
  rw [h.roots_eq, hindices]
  exact Forest.plant_congr h.sameNext _ List.nodup_range

theorem neighbors_eq (h : d.SameWays e) : d.neighbors = e.neighbors := by
  funext v
  rw [Diagram.neighbors_eq, Diagram.neighbors_eq]
  apply gather_congr
  intro w
  by_cases hne : w = v
  · simp [hne]
  · simp [hne, h.mem_successors hne, h.mem_predecessors hne]

end SameWays

end Diagram

end GraphScribe
