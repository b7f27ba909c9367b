import GraphScribe.Proofs.Placement.Components
import GraphScribe.Scalar.Double
import Mathlib.Data.List.Nodup

/-! # Free cells on a grid

No ring around a cell is empty and no two have a cell in common, so of more rings than there are
cells taken one has a free cell. A search that goes outwards ring by ring, with no bound of its own,
therefore ends, and no free cell is nearer than the one where it ends. Boxes that are snapped one
after the other get a cell each. -/
namespace GraphScribe.Grid

def chebyshev (c x : Cell) : Nat := max (x.1 - c.1).natAbs (x.2 - c.2).natAbs

theorem mem_span {radius : Nat} {i : Int} : i ∈ span radius ↔ i.natAbs ≤ radius := by
  simp only [span, List.mem_map, List.mem_range]
  constructor
  · rintro ⟨n, hn, rfl⟩
    omega
  · intro hi
    exact ⟨(i + radius).toNat, by omega, by omega⟩

theorem nodup_span (radius : Nat) : (span radius).Nodup := by
  apply List.nodup_range.map
  intro m n hmn
  dsimp only at hmn
  omega

theorem mem_ring {c x : Cell} {radius : Nat} : x ∈ ring c radius ↔ chebyshev c x = radius := by
  obtain ⟨a, b⟩ := x
  simp only [ring, List.mem_map, List.mem_filter, List.mem_flatMap, mem_span, beq_iff_eq,
    Prod.exists, Prod.mk.injEq]
  constructor
  · rintro ⟨dx, dy, ⟨-, hmax⟩, rfl, rfl⟩
    simp only [chebyshev]
    omega
  · intro h
    simp only [chebyshev] at h
    refine ⟨a - c.1, b - c.2, ⟨⟨b - c.2, ?_, a - c.1, ?_, rfl, rfl⟩, h⟩, ?_, ?_⟩ <;> omega

theorem nodup_ring (c : Cell) (radius : Nat) : (ring c radius).Nodup := by
  unfold ring
  apply List.Nodup.map
  · rintro ⟨a, b⟩ ⟨a', b'⟩ h
    obtain ⟨ha, hb⟩ := Prod.mk.inj h
    exact Prod.ext (by omega) (by omega)
  apply List.Nodup.filter
  rw [List.nodup_flatMap]
  constructor
  · intro dy _
    exact (nodup_span radius).map fun a b h => (Prod.mk.inj h).1
  · apply (nodup_span radius).imp
    intro dy dy' hne x hx hx'
    obtain ⟨_, _, rfl⟩ := List.mem_map.mp hx
    obtain ⟨_, _, h⟩ := List.mem_map.mp hx'
    exact hne (Prod.mk.inj h).2.symm

variable {α : Type} [Scalar α]

theorem leastBy_mem {β : Type} {key : β → α} {bs : List β} {b : β} (h : leastBy key bs = some b) :
    b ∈ bs := by
  cases bs with
  | nil => cases h
  | cons first bs =>
    obtain rfl := Option.some.inj h
    clear h
    -- the least so far is an element that has been met
    induction bs generalizing first with
    | nil => exact List.mem_cons_self
    | cons c bs ih =>
      rw [List.foldl_cons]
      split
      · exact List.mem_cons_of_mem _ (ih c)
      · rcases List.mem_cons.mp (ih first) with hfirst | hlater
        · rw [hfirst]
          exact List.mem_cons_self
        · exact List.mem_cons_of_mem _ (List.mem_cons_of_mem _ hlater)

theorem leastBy_eq_none {β : Type} {key : β → α} {bs : List β} :
    leastBy key bs = none ↔ bs = [] := by
  cases bs <;> simp [leastBy]

variable {pitch : α} {p : Point α} {taken : List Cell} {target c : Cell} {radius : Nat}

theorem freeOn_eq_some (h : freeOn pitch p taken target radius = some c) :
    chebyshev target c = radius ∧ c ∉ taken := by
  obtain ⟨hring, hfree⟩ := List.mem_filter.mp (leastBy_mem h)
  exact ⟨mem_ring.mp hring, by simpa using hfree⟩

theorem freeOn_eq_none :
    freeOn pitch p taken target radius = none ↔ ∀ x, chebyshev target x = radius → x ∈ taken := by
  rw [freeOn, leastBy_eq_none, List.filter_eq_nil_iff]
  constructor
  · intro h x hx
    simpa using h x (mem_ring.mpr hx)
  · intro h x hx
    simpa using h x (mem_ring.mp hx)

/-- The search from a ring outwards ends at the cell `c`. Nothing but a free cell ends it. -/
inductive Search (pitch : α) (p : Point α) (taken : List Cell) (target : Cell) :
    Nat → Cell → Prop where
  | found {radius : Nat} {c : Cell} (h : freeOn pitch p taken target radius = some c) :
      Search pitch p taken target radius c
  | further {radius : Nat} {c : Cell} (h : freeOn pitch p taken target radius = none)
      (more : Search pitch p taken target (radius + 1) c) : Search pitch p taken target radius c

theorem Search.unique (h : Search pitch p taken target radius c) {x : Cell}
    (hx : Search pitch p taken target radius x) : x = c := by
  induction h with
  | found hfree =>
    cases hx with
    | found hx => exact Option.some.inj (hx.symm.trans hfree)
    | further hx _ => exact absurd (hx.symm.trans hfree) (by simp)
  | further hnone _ ih =>
    cases hx with
    | found hx => exact absurd (hnone.symm.trans hx) (by simp)
    | further _ hx => exact ih hx

theorem Search.nearest (h : Search pitch p taken target radius c) : c ∉ taken ∧
    ∀ x, x ∉ taken → radius ≤ chebyshev target x → chebyshev target c ≤ chebyshev target x := by
  induction h with
  | found hfree =>
    obtain ⟨rfl, hc⟩ := freeOn_eq_some hfree
    exact ⟨hc, fun x _ hx => hx⟩
  | @further radius c hnone _ ih =>
    refine ⟨ih.1, ?_⟩
    intro x hx hle
    have hother : chebyshev target x ≠ radius := fun heq => hx (freeOn_eq_none.mp hnone x heq)
    exact ih.2 x hx (by omega)

theorem search_of_findSome? {n : Nat}
    (h : (List.range' radius n).findSome? (freeOn pitch p taken target) = some c) :
    Search pitch p taken target radius c := by
  induction n generalizing radius with
  | zero => cases h
  | succ n ih =>
    rw [List.range'_succ, List.findSome?_cons] at h
    split at h
    · rename_i hfree
      obtain rfl := Option.some.inj h
      exact .found hfree
    · rename_i hnone
      exact .further hnone (ih h)

/-- Cells that fill the rings up to a radius are at least as many as those rings. -/
theorem exists_free (pitch : α) (p : Point α) (taken : List Cell) (target : Cell) :
    ((List.range' 1 (taken.length + 1)).findSome? (freeOn pitch p taken target)).isSome := by
  by_contra hnone
  rw [Option.not_isSome_iff_eq_none, List.findSome?_eq_none_iff] at hnone
  let east (r : Nat) : Cell := (target.1 + r, target.2)
  have hnodup : ((List.range' 1 (taken.length + 1)).map east).Nodup := by
    apply List.Nodup.map _ List.nodup_range'
    intro r s h
    have := (Prod.mk.inj h).1
    omega
  have hsubset : (List.range' 1 (taken.length + 1)).map east ⊆ taken := by
    intro x hx
    obtain ⟨r, hr, rfl⟩ := List.mem_map.mp hx
    apply freeOn_eq_none.mp (hnone r hr)
    simp only [chebyshev, east]
    omega
  have hle := hnodup.length_le_of_subset hsubset
  rw [List.length_map, List.length_range'] at hle
  omega

/-- Where the cell under the point is taken, the bounded search is the one without a bound. -/
theorem search_nearestFree (h : under pitch p ∈ taken) :
    Search pitch p taken (under pitch p) 1 (nearestFree pitch p taken) := by
  obtain ⟨c, hc⟩ := Option.isSome_iff_exists.mp (exists_free pitch p taken (under pitch p))
  have heq : nearestFree pitch p taken = c := by
    rw [nearestFree, if_pos (by simpa using h), hc]
    rfl
  rw [heq]
  exact search_of_findSome? hc

theorem nearestFree_of_free (h : under pitch p ∉ taken) :
    nearestFree pitch p taken = under pitch p := by
  rw [nearestFree, if_neg (by simpa using h)]

theorem nearestFree_nearest (pitch : α) (p : Point α) (taken : List Cell) :
    nearestFree pitch p taken ∉ taken ∧ ∀ x, x ∉ taken →
      chebyshev (under pitch p) (nearestFree pitch p taken) ≤ chebyshev (under pitch p) x := by
  by_cases h : under pitch p ∈ taken
  · obtain ⟨hfree, hnearest⟩ := (search_nearestFree h).nearest
    refine ⟨hfree, ?_⟩
    intro x hx
    apply hnearest x hx
    -- only the cell under the point is on no ring of the search
    by_contra hzero
    have heq : x = under pitch p := by
      simp only [chebyshev] at hzero
      exact Prod.ext (by omega) (by omega)
    exact hx (heq ▸ h)
  · rw [nearestFree_of_free h]
    exact ⟨h, fun x _ => by simp [chebyshev]⟩

theorem snap_fresh (pitch : α) (point : Nat → Point α) (vs : List Nat) (taken : List Cell) :
    ((snap pitch point vs taken).map (·.2)).Nodup ∧
      ∀ c ∈ (snap pitch point vs taken).map (·.2), c ∉ taken := by
  induction vs generalizing taken with
  | nil => simp [snap]
  | cons v vs ih =>
    obtain ⟨hnodup, hfresh⟩ := ih (nearestFree pitch (point v) taken :: taken)
    rw [snap, List.map_cons, List.nodup_cons, List.forall_mem_cons]
    refine ⟨⟨?_, hnodup⟩, (nearestFree_nearest pitch (point v) taken).1, ?_⟩
    · intro hmem
      exact hfresh _ hmem List.mem_cons_self
    · intro c hc hold
      exact hfresh c hc (List.mem_cons_of_mem _ hold)

/-- Snapping in place: a point is read when its turn comes and is put on its cell at once. -/
def snapInPlace (pitch : α) : List Nat → List Cell → (Nat → Point α) → Nat → Point α
  | [], _, point => point
  | v :: vs, taken, point =>
    let c := nearestFree pitch (point v) taken
    snapInPlace pitch vs (c :: taken) (Function.update point v (center pitch c))

theorem snap_congr (pitch : α) {point point' : Nat → Point α} {vs : List Nat}
    (h : ∀ v ∈ vs, point v = point' v) (taken : List Cell) :
    snap pitch point vs taken = snap pitch point' vs taken := by
  induction vs generalizing taken with
  | nil => rfl
  | cons v vs ih =>
    obtain ⟨hv, hvs⟩ := List.forall_mem_cons.mp h
    rw [snap, snap, hv, ih hvs]

theorem snapInPlace_of_notMem (pitch : α) {vs : List Nat} {v : Nat} (h : v ∉ vs)
    (taken : List Cell) (point : Nat → Point α) : snapInPlace pitch vs taken point v = point v := by
  induction vs generalizing taken point with
  | nil => rfl
  | cons w vs ih =>
    obtain ⟨hne, hvs⟩ := not_or.mp (mt List.mem_cons.mpr h)
    rw [snapInPlace, ih hvs, Function.update_of_ne hne]

theorem snapInPlace_eq (pitch : α) {vs : List Nat} (hvs : vs.Nodup) (taken : List Cell)
    (point : Nat → Point α) {v : Nat} (hv : v ∈ vs) (c : Cell) :
    snapInPlace pitch vs taken point v = center pitch ((snap pitch point vs taken).get v c) := by
  induction vs generalizing taken point with
  | nil => cases hv
  | cons w vs ih =>
    obtain ⟨hw, hvs⟩ := List.nodup_cons.mp hvs
    rw [snapInPlace, snap]
    by_cases hvw : v = w
    · subst hvw
      rw [snapInPlace_of_notMem pitch hw, Function.update_self, Table.get_cons_self]
    · have hlater : v ∈ vs := (List.mem_cons.mp hv).resolve_left hvw
      have hpoints : ∀ u ∈ vs, Function.update point w
          (center pitch (nearestFree pitch (point w) taken)) u = point u := by
        intro u hu
        exact Function.update_of_ne (ne_of_mem_of_not_mem hu hw) _ _
      rw [ih hvs _ _ hlater, snap_congr pitch hpoints, Table.get_cons_of_ne hvw]

structure Snapped (pitch : α) (order : List Nat) (point : Nat → Point α) (cells : Table Cell) :
    Prop where
  keys : cells.keys = order
  centered : ∀ v ∈ order, ∀ c, snapInPlace pitch order [] point v = center pitch (cells.get v c)
  apart : ∀ v ∈ order, ∀ w ∈ order, v ≠ w → ∀ c, cells.get v c ≠ cells.get w c

theorem snapped_snap (pitch : α) {order : List Nat} (horder : order.Nodup)
    (point : Nat → Point α) : Snapped pitch order point (snap pitch point order []) := by
  have hkeys := keys_snap pitch point order []
  constructor
  · exact hkeys
  · intro v hv c
    exact snapInPlace_eq pitch horder [] point hv c
  · intro v hv w hw hne c heq
    have hv' := Table.mem_of_mem_keys (hkeys.symm ▸ hv) c
    have hw' := Table.mem_of_mem_keys (hkeys.symm ▸ hw) c
    have hentry := List.inj_on_of_nodup_map (snap_fresh pitch point order []).1 hv' hw' heq
    exact hne (Prod.mk.inj hentry).1

/-- The cell is where the search for a cell ends, it is free, and no free cell is nearer to the one
under the point. -/
structure Nearest (pitch : α) (p : Point α) (taken : List Cell) (c : Cell) : Prop where
  stays : under pitch p ∉ taken → c = under pitch p
  ends : under pitch p ∈ taken → ∀ x, Search pitch p taken (under pitch p) 1 x ↔ x = c
  free : c ∉ taken
  least : ∀ x, x ∉ taken → chebyshev (under pitch p) c ≤ chebyshev (under pitch p) x

/-- Snapping gives distinct boxes distinct cells. Whatever cells are taken, the search for another
ends at a free one at the least distance from the cell under the point. A ring holds each cell at
its distance once. -/
theorem snap_apart_nearest (pitch : α) {order : List Nat} (horder : order.Nodup)
    (point : Nat → Point α) :
    Snapped pitch order point (snap pitch point order []) ∧
      (∀ p taken, Nearest pitch p taken (nearestFree pitch p taken)) ∧
      ∀ c radius, (ring c radius).Nodup ∧ ∀ x, x ∈ ring c radius ↔ chebyshev c x = radius := by
  refine ⟨snapped_snap pitch horder point, ?_, ?_⟩
  · intro p taken
    obtain ⟨hfree, hleast⟩ := nearestFree_nearest pitch p taken
    refine ⟨nearestFree_of_free, ?_, hfree, hleast⟩
    intro hunder x
    constructor
    · exact (search_nearestFree hunder).unique
    · rintro rfl
      exact search_nearestFree hunder
  · intro c radius
    exact ⟨nodup_ring c radius, fun x => mem_ring⟩

/-- Two boxes at one point, as twins among the neighbours of others are. -/
theorem snap_apart_nearest_twins :
    [4, 5].Nodup ∧
      Snapped (60 : Float) [4, 5] (fun _ => .origin)
        (snap (60 : Float) (fun _ => .origin) [4, 5] []) ∧
      (ring (2, -1) 1).length = 8 := by
  have hnodup : [4, 5].Nodup := by decide
  exact ⟨hnodup, (snap_apart_nearest (60 : Float) hnodup fun _ => .origin).1, by decide⟩

end GraphScribe.Grid
