import GraphScribe.Proofs.Placement.ChordlessFrames
import GraphScribe.Proofs.Placement.Outlines
import GraphScribe.Proofs.Placement.Rows
import GraphScribe.Proofs.Placement.Snapping

/-! # Gaps between the boxes of a planar drawing

The pitch of the grid is at least the diagonal of every box, so boxes in different cells do not meet,
and snapping puts the boxes of a component in different cells, wherever the embedding has left them.
The drawings of the components are moved as wholes and put side by side, so that their hulls keep the
component spacing. -/
namespace GraphScribe.Planar

open Stretch (around Apart Before)

section Points

variable {α : Type} [Scalar α]

def drawings (settings : PlanarSettings α) (d : Diagram α) (points : Component → Points α) :
    List (Table (Point α)) :=
  (Component.all d.rows d.count).map fun c => snapped (gridPitch settings d) (points c) c

def tableFrom (settings : PlanarSettings α) (d : Diagram α) (points : Component → Points α) :
    Table (Point α) :=
  pack settings.componentSpacing d.size (Scalar.ofNat 0) (drawings settings d points)

/-- Places the boxes from the given points as the planar placement does from those of the
embedding. -/
def placeFrom (settings : PlanarSettings α) (d : Diagram α) (points : Component → Points α) :
    List (Point α) :=
  d.indices.map fun v => (tableFrom settings d points).get v (d.position v)

def embedded (settings : PlanarSettings α) (d : Diagram α) (c : Component) : Points α :=
  embed settings.iterations d.rows (gridPitch settings d) c (Array.replicate d.count .origin)

theorem place_eq_placeFrom (settings : PlanarSettings α) (d : Diagram α) :
    place settings d = placeFrom settings d (embedded settings d) := rfl

end Points

variable {K : Type} [ExactScalar K] {d : Diagram K} {t : Table (Point K)}

section Cells

variable {pitch : K}

structure Fits (pitch : K) (s : Size K) : Prop where
  width : s.width ≤ pitch
  height : s.height ≤ pitch

theorem around_before (hpitch : 0 ≤ pitch) {extent extent' : K} (h : extent ≤ pitch)
    (h' : extent' ≤ pitch) {i j : ℤ} (hij : i < j) :
    Before 0 (around (i * pitch) extent) (around (j * pitch) extent') := by
  have hstep : (i : K) + 1 ≤ j := by exact_mod_cast hij
  have hnext : i * pitch + pitch ≤ j * pitch := by
    rw [← add_one_mul]
    exact mul_le_mul_of_nonneg_right hstep hpitch
  simp only [Before, around, Scalar.half_exact]
  linarith

theorem around_apart (hpitch : 0 ≤ pitch) {extent extent' : K} (h : extent ≤ pitch)
    (h' : extent' ≤ pitch) {i j : ℤ} (hij : i ≠ j) :
    Apart 0 (around (i * pitch) extent) (around (j * pitch) extent') := by
  rcases lt_or_gt_of_ne hij with hlt | hgt
  · exact .inl (around_before hpitch h h' hlt)
  · exact .inr (around_before hpitch h' h hgt)

theorem cells_clear (hpitch : 0 ≤ pitch) {s s' : Size K} (hs : Fits pitch s) (hs' : Fits pitch s')
    {c c' : Grid.Cell} (hne : c ≠ c') :
    (Rect.ofCenter (Grid.center pitch c) s).intersects (.ofCenter (Grid.center pitch c') s') =
      false := by
  by_cases hcolumn : c.1 = c'.1
  · have hrow : c.2 ≠ c'.2 := fun hrow => hne (Prod.ext hcolumn hrow)
    apply Rect.intersects_of_vertical le_rfl
    rw [Rect.vertical_ofCenter, Rect.vertical_ofCenter]
    exact around_apart hpitch hs.height hs'.height hrow
  · apply Rect.intersects_of_horizontal le_rfl
    rw [Rect.horizontal_ofCenter, Rect.horizontal_ofCenter]
    exact around_apart hpitch hs.width hs'.width hcolumn

end Cells

def Clear (d : Diagram K) (t : Table (Point K)) : Prop :=
  t.Pairwise fun e e' => (d.outline e).intersects (d.outline e') = false

theorem clear_snapped {pitch : K} (hpitch : 0 ≤ pitch) (hfits : ∀ v, Fits pitch (d.size v))
    (ps : Points K) (c : Component) : Clear d (snapped pitch ps c) := by
  have hcells := (Grid.snap_fresh pitch (pointAt ps) c.nodes []).1
  rw [List.Nodup, List.pairwise_map] at hcells
  rw [Clear, snapped, List.pairwise_map]
  apply hcells.imp
  intro e e' hne
  exact cells_clear hpitch (hfits _) (hfits _) hne

/-- The drawing moved as a whole. -/
def moved (offset : Point K) (t : Table (Point K)) : Table (Point K) :=
  t.map fun e => (e.1, e.2 + offset)

theorem keys_moved (offset : Point K) (t : Table (Point K)) : (moved offset t).keys = t.keys := by
  rw [Table.keys, moved, List.map_map]
  rfl

theorem outline_moved (offset : Point K) (e : Nat × Point K) :
    d.outline (e.1, e.2 + offset) = (d.outline e).shift offset := Rect.ofCenter_add _ _ _

theorem Clear.moved (h : Clear d t) (offset : Point K) : Clear d (moved offset t) := by
  rw [Clear, Planar.moved, List.pairwise_map]
  apply h.imp
  intro e e' hclear
  rw [outline_moved, outline_moved, Rect.intersects_shift]
  exact hclear

/-- The parts are the drawings side by side, from the cursor on: each is a drawing moved as a whole,
and keeps the spacing to those after it. -/
structure Packed (d : Diagram K) (spacing cursor : K) (drawings parts : List (Table (Point K))) :
    Prop where
  moved : List.Forall₂ (fun drawing part => ∃ offset, part = moved offset drawing) drawings parts
  beyond : ∀ part ∈ parts, ∀ e ∈ part, cursor ≤ (d.outline e).left
  ordered : parts.Pairwise fun part later => ∀ e ∈ part, ∀ e' ∈ later,
    Before spacing (d.outline e).horizontal (d.outline e').horizontal

variable {spacing cursor next : K} {drawing part : Table (Point K)}
  {drawings parts : List (Table (Point K))}

theorem Packed.cons (h : Packed d spacing next drawings parts) (hnext : cursor ≤ next)
    (hpart : ∃ offset, part = Planar.moved offset drawing)
    (hinside : ∀ e ∈ part, cursor ≤ (d.outline e).left ∧ (d.outline e).right + spacing ≤ next) :
    Packed d spacing cursor (drawing :: drawings) (part :: parts) := by
  constructor
  · exact .cons hpart h.moved
  · rw [List.forall_mem_cons]
    constructor
    · intro e he
      exact (hinside e he).1
    · intro later hlater e he
      exact hnext.trans (h.beyond later hlater e he)
  · refine List.pairwise_cons.mpr ⟨?_, h.ordered⟩
    intro later hlater e he e' he'
    exact (hinside e he).2.trans (h.beyond later hlater e' he')

theorem moved_inside {bounds : Rect K}
    (hbounds : Rect.unionAll? (drawing.map d.outline) = some bounds) (y : K) :
    ∀ e ∈ moved ⟨cursor - bounds.x, y⟩ drawing,
      cursor ≤ (d.outline e).left ∧ (d.outline e).right ≤ cursor + bounds.width := by
  intro e he
  obtain ⟨old, hold, rfl⟩ := List.mem_map.mp he
  have hcovers := (Rect.isHull_unionAll? hbounds).covers _ (List.mem_map_of_mem hold)
  have hleft : bounds.x ≤ (d.outline old).left := hcovers.left
  have hright : (d.outline old).right ≤ bounds.x + bounds.width := hcovers.right
  rw [outline_moved, Rect.shift_left, Rect.shift_right]
  constructor
  · linarith
  · linarith

theorem hull_width_nonneg (hwidth : ∀ v, 0 ≤ (d.size v).width) {bounds : Rect K}
    (hbounds : Rect.unionAll? (drawing.map d.outline) = some bounds) : 0 ≤ bounds.width := by
  cases drawing with
  | nil => cases hbounds
  | cons e es =>
    have hcovers := (Rect.isHull_unionAll? hbounds).covers (d.outline e) List.mem_cons_self
    have hright : (d.outline e).left + (d.size e.1).width ≤ bounds.left + bounds.width :=
      hcovers.right
    linarith [hcovers.left, hwidth e.1]

theorem pack_cons (d : Diagram K) (spacing cursor : K) (drawing : Table (Point K))
    (drawings : List (Table (Point K))) : pack spacing d.size cursor (drawing :: drawings) =
      match Rect.unionAll? (drawing.map d.outline) with
      | none => pack spacing d.size cursor drawings
      | some bounds => moved ⟨cursor - bounds.x, -bounds.y⟩ drawing ++
          pack spacing d.size (cursor + (bounds.width + spacing)) drawings := rfl

theorem exists_packed (hspacing : 0 ≤ spacing) (hwidth : ∀ v, 0 ≤ (d.size v).width)
    (drawings : List (Table (Point K))) (cursor : K) :
    ∃ parts, pack spacing d.size cursor drawings = parts.flatten ∧
      Packed d spacing cursor drawings parts := by
  induction drawings generalizing cursor with
  | nil => exact ⟨[], rfl, .nil, by simp, .nil⟩
  | cons drawing drawings ih =>
    rw [pack_cons]
    cases hbounds : Rect.unionAll? (drawing.map d.outline) with
    | none =>
      -- a drawing without boxes is passed over
      obtain rfl : drawing = [] := by
        cases drawing with
        | nil => rfl
        | cons e es => cases hbounds
      obtain ⟨parts, hparts, hpacked⟩ := ih cursor
      exact ⟨[] :: parts, hparts, hpacked.cons le_rfl ⟨.origin, rfl⟩ (by simp)⟩
    | some bounds =>
      obtain ⟨parts, hparts, hpacked⟩ := ih (cursor + (bounds.width + spacing))
      have hnonneg := hull_width_nonneg hwidth hbounds
      refine ⟨moved ⟨cursor - bounds.x, -bounds.y⟩ drawing :: parts, ?_, ?_⟩
      · rw [List.flatten_cons, ← hparts]
      · apply hpacked.cons _ ⟨_, rfl⟩
        · intro e he
          obtain ⟨hleft, hright⟩ := moved_inside hbounds _ e he
          refine ⟨hleft, ?_⟩
          linarith
        · linarith

/-- No two boxes meet, and the components stand side by side with a gap between their hulls. -/
structure Spread (gap : K) (cs : List Component) (d : Diagram K) : Prop where
  boxes : ∀ (v w : Nat) (b c : Box K), d.boxes[v]? = some b → d.boxes[w]? = some c → v ≠ w →
    b.bounds.intersects c.bounds = false
  components : cs.Pairwise fun c c' => ∃ r s : Rect K, r.IsHull (d.outlines c.nodes) ∧
    s.IsHull (d.outlines c'.nodes) ∧ r.horizontal.Before gap s.horizontal

theorem Clear.apart (h : Clear d t) {e e' : Nat × Point K} (he : e ∈ t) (he' : e' ∈ t)
    (hne : e.1 ≠ e'.1) : (d.outline e).intersects (d.outline e') = false := by
  rcases Table.pairwise_or h he he' hne with hclear | hclear
  · exact hclear
  · rwa [Rect.intersects_comm]

structure Draws (d : Diagram K) (c : Component) (part : Table (Point K)) : Prop where
  keys : part.keys = c.nodes
  clear : Clear d part

theorem Draws.exists_hull {c : Component} (h : Draws d c part) (hc : c.frame ≠ []) :
    ∃ u : Rect K, u.IsHull (part.map d.outline) := by
  cases part with
  | nil =>
    have hnodes : c.frame ++ c.interior = [] := h.keys.symm
    exact absurd (List.append_eq_nil_iff.mp hnodes).1 hc
  | cons e es => exact ⟨_, Rect.isHull_unionAll? rfl⟩

section Parts

variable {cs : List Component}

theorem keys_flatten (h : List.Forall₂ (Draws d) cs parts) :
    Table.keys parts.flatten = cs.flatMap Component.nodes := by
  induction h with
  | nil => rfl
  | cons hdraws _ ih =>
    rw [List.flatten_cons, List.flatMap_cons, ← ih, ← hdraws.keys]
    exact List.map_append

theorem clear_flatten (h : List.Forall₂ (Draws d) cs parts) (hspacing : 0 ≤ spacing)
    (hordered : parts.Pairwise fun part later => ∀ e ∈ part, ∀ e' ∈ later,
      Before spacing (d.outline e).horizontal (d.outline e').horizontal) :
    Clear d parts.flatten := by
  apply List.pairwise_flatten.mpr
  constructor
  · clear hordered
    induction h with
    | nil => simp
    | cons hdraws _ ih => exact List.forall_mem_cons.mpr ⟨hdraws.clear, ih⟩
  · apply hordered.imp
    intro part later hbefore e he e' he'
    exact Rect.intersects_of_horizontal hspacing (.inl (hbefore e he e' he'))

end Parts

theorem pairwise_of_forall₂ {β γ : Type} {R : β → γ → Prop} {S : γ → γ → Prop} {T : β → β → Prop}
    {bs : List β} {cs : List γ} (h : List.Forall₂ R bs cs) (hcs : cs.Pairwise S)
    (himp : ∀ b c b' c', R b c → R b' c' → S c c' → T b b') : bs.Pairwise T := by
  rw [List.pairwise_iff_getElem] at hcs ⊢
  intro i j hi hj hij
  have hlength := h.length_eq
  exact himp _ _ _ _ (h.get hi (hlength ▸ hi)) (h.get hj (hlength ▸ hj)) (hcs i j _ _ hij)

variable {settings : PlanarSettings K}

theorem Packed.draws {points : Component → Points K}
    (h : Packed d spacing cursor (Planar.drawings settings d points) parts)
    (hpitch : 0 ≤ gridPitch settings d) (hfits : ∀ v, Fits (gridPitch settings d) (d.size v)) :
    List.Forall₂ (Draws d) (Component.all d.rows d.count) parts := by
  have hmoved := h.moved
  rw [Planar.drawings, List.forall₂_map_left_iff] at hmoved
  apply hmoved.imp
  rintro c part ⟨offset, rfl⟩
  constructor
  · rw [keys_moved, keys_snapped]
  · exact (clear_snapped hpitch hfits _ c).moved offset

theorem spread_placeFrom (hd : d.Linked) (hpitch : 0 ≤ gridPitch settings d)
    (hfits : ∀ v, Fits (gridPitch settings d) (d.size v)) (hwidth : ∀ v, 0 ≤ (d.size v).width)
    (hspacing : 0 ≤ settings.componentSpacing) (points : Component → Points K) :
    Spread settings.componentSpacing (Component.all d.rows d.count)
      (d.moveTo (placeFrom settings d points)) := by
  obtain ⟨parts, htable, hpacked⟩ :=
    exists_packed hspacing hwidth (drawings settings d points) (Scalar.ofNat 0)
  have hdraws := hpacked.draws hpitch hfits
  have hkeys : (Table.keys parts.flatten).Perm d.indices := by
    rw [keys_flatten hdraws]
    exact hd.splits.perm
  have hplace : placeFrom settings d points =
      d.indices.map fun v => Table.get parts.flatten v (d.position v) := by
    rw [placeFrom, tableFrom, htable]
  rw [hplace]
  constructor
  · intro v w b c hb hc hne
    obtain ⟨e, he, rfl, hbe⟩ := Diagram.outline_of_moveTo (fun _ => hkeys.mem_iff.mpr) hb
    obtain ⟨e', he', rfl, hce⟩ := Diagram.outline_of_moveTo (fun _ => hkeys.mem_iff.mpr) hc
    rw [hbe, hce]
    exact (clear_flatten hdraws hspacing hpacked.ordered).apart he he' hne
  · have hboth := (List.forall₂_and_left _ _).mpr ⟨hd.splits.outlined, hdraws⟩
    apply pairwise_of_forall₂ hboth (List.Pairwise.and_mem.mp hpacked.ordered)
    rintro c part c' part' ⟨hc, hpart⟩ ⟨hc', hpart'⟩ ⟨hmem, hmem', hbefore⟩
    have houtlines : ∀ part ∈ parts, (d.moveTo (d.indices.map fun v =>
        Table.get parts.flatten v (d.position v))).outlines part.keys = part.map d.outline := by
      intro part hmem
      have hsub : part ⊆ parts.flatten := fun e he => List.mem_flatten.mpr ⟨part, hmem, he⟩
      apply Diagram.outlines_moveTo (hkeys.nodup_iff.mpr List.nodup_range) hsub
      intro v hv
      exact hkeys.mem_iff.mp (List.map_subset _ hsub hv)
    obtain ⟨r, hr⟩ := hpart.exists_hull hc.nonempty
    obtain ⟨s, hs⟩ := hpart'.exists_hull hc'.nonempty
    rw [← hpart.keys, ← hpart'.keys, houtlines part hmem, houtlines part' hmem']
    refine ⟨r, s, hr, hs, hr.before hs ?_⟩
    simp only [List.forall_mem_map]
    exact hbefore

section Real

variable {settings : PlanarSettings ℝ} {d : Diagram ℝ}

theorem fits_diagonal (s : Size ℝ) : Fits s.diagonal s := by
  have hdiagonal : s.diagonal = √(s.width ^ 2 + s.height ^ 2) := rfl
  rw [hdiagonal]
  constructor
  · apply Real.le_sqrt_of_sq_le
    exact le_add_of_nonneg_right (sq_nonneg _)
  · apply Real.le_sqrt_of_sq_le
    exact le_add_of_nonneg_left (sq_nonneg _)

theorem gridPitch_nonneg (settings : PlanarSettings ℝ) (d : Diagram ℝ) :
    0 ≤ gridPitch settings d := by
  simp [gridPitch]

theorem fits_gridPitch (hnode : 0 ≤ settings.nodeSpacing) (v : Nat) :
    Fits (gridPitch settings d) (d.size v) := by
  have hpitch : d.maxDiagonal ≤ gridPitch settings d := by
    rw [gridPitch, Scalar.max_exact]
    exact le_max_of_le_left (le_add_of_nonneg_right hnode)
  apply Diagram.size_of_boxes
  · exact ⟨by simpa [Size.zero] using gridPitch_nonneg settings d,
      by simpa [Size.zero] using gridPitch_nonneg settings d⟩
  · intro b hb
    have hdiagonal : b.size.diagonal ≤ d.maxDiagonal := by
      apply Scalar.le_largest
      exact List.mem_cons_of_mem _ (List.mem_map_of_mem (Array.mem_toList_iff.mpr hb))
    have hfits := fits_diagonal b.size
    exact ⟨hfits.width.trans (hdiagonal.trans hpitch), hfits.height.trans (hdiagonal.trans hpitch)⟩

/-- In exact arithmetic the boxes of a planar drawing never meet, if no size and neither spacing is
negative, and the hulls of different components are at least the component spacing apart. That is so
from wherever the boxes are snapped, and the embedding is one way to bring them there. -/
theorem boxes_clear_components_spread (settings : PlanarSettings ℝ) (hd : d.Built)
    (hsize : ∀ b ∈ d.boxes, 0 ≤ b.size.width ∧ 0 ≤ b.size.height)
    (hnode : 0 ≤ settings.nodeSpacing) (hcomponent : 0 ≤ settings.componentSpacing) :
    Component.Splits d.rows d.joined d.indices (Component.all d.rows d.count) ∧
      place settings d = placeFrom settings d (embedded settings d) ∧
      ∀ points, Spread settings.componentSpacing (Component.all d.rows d.count)
        (d.moveTo (placeFrom settings d points)) := by
  have hwidth : ∀ v, 0 ≤ (d.size v).width :=
    Diagram.size_of_boxes (P := fun s => 0 ≤ s.width) (by simp [Size.zero]) fun b hb => (hsize b hb).1
  refine ⟨hd.linked.splits, place_eq_placeFrom settings d, ?_⟩
  intro points
  exact spread_placeFrom hd.linked (gridPitch_nonneg settings d) (fits_gridPitch hnode) hwidth
    hcomponent points

noncomputable def bystander : Diagram ℝ := .sized [⟨40, 24⟩, ⟨10, 60⟩, ⟨30, 30⟩] [(0, 2)]

/-- The boxes are spread out even from one and the same point. -/
theorem boxes_clear_components_spread_bystander :
    bystander.Built ∧
      Component.all bystander.rows bystander.count = [⟨[0, 2], []⟩, ⟨[1], []⟩] ∧
      Spread 60 [⟨[0, 2], []⟩, ⟨[1], []⟩] (bystander.moveTo (place ⟨40, 60, 50⟩ bystander)) ∧
      Spread 60 [⟨[0, 2], []⟩, ⟨[1], []⟩]
        (bystander.moveTo (placeFrom ⟨40, 60, 50⟩ bystander fun _ => #[])) := by
  have hbuilt : bystander.Built := Diagram.built_sized (by decide)
  have hcount : bystander.count = 3 := rfl
  have hrows : (List.range 3).map bystander.rows = [[2], [], [0]] := by decide +kernel
  simp only [List.range, List.range.loop, List.map, List.cons.injEq, and_true] at hrows
  obtain ⟨h0, h1, h2⟩ := hrows
  have hall : Component.all bystander.rows bystander.count = [⟨[0, 2], []⟩, ⟨[1], []⟩] := by
    simp [hcount, Component.all, Component.collect, Component.search, Component.ofSearch,
      Component.closed?, Component.Path.boxes, List.range, List.range.loop, h0, h1, h2]
  obtain ⟨-, hplace, hspread⟩ := boxes_clear_components_spread ⟨40, 60, 50⟩ hbuilt
    (Diagram.sized_nonneg _ _) (by norm_num) (by norm_num)
  rw [hall] at hspread
  rw [hplace]
  exact ⟨hbuilt, hall, hspread _, hspread _⟩

end Real

end GraphScribe.Planar
