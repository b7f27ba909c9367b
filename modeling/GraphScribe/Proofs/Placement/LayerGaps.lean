import GraphScribe.Proofs.Placement.Layering
import GraphScribe.Proofs.Placement.LongestPaths
import GraphScribe.Proofs.Placement.Outlines
import GraphScribe.Proofs.Placement.Rows

/-! # Gaps between the boxes of layers

The boxes of a layer stand in a row across the levels, and the layers follow each other along them,
each as deep as its deepest box. So boxes of one rank keep the node spacing across and boxes of two
ranks the rank spacing along, however often the layers have been reordered. Where no cycle goes
through several boxes ranks grow along links, and every link points forwards. -/
namespace GraphScribe.Layered

open Stretch (around Apart Before)

theorem placeLayer_eq_row {α : Type} [Scalar α] (direction : Direction) (spacing : α)
    (cross : Nat → α) (main cursor : α) (layer : List Nat) :
    placeLayer direction spacing cross main cursor layer =
      (Tree.row spacing cross cursor layer).map fun e => (e.1, direction.orient e.2 main) := by
  induction layer generalizing cursor with
  | nil => rfl
  | cons v vs ih => exact congrArg (_ :: ·) (ih _)

theorem mem_layer_of_placeLayer {α : Type} [Scalar α] {direction : Direction} {spacing : α}
    {cross : Nat → α} {main cursor : α} {layer : List Nat} {e : Nat × Point α}
    (he : e ∈ placeLayer direction spacing cross main cursor layer) : e.1 ∈ layer := by
  rw [← keys_placeLayer direction spacing cross main cursor layer]
  exact Table.mem_keys_of_mem he

variable {K : Type} [ExactScalar K] {settings : LayeredSettings K} {direction : Direction}
  {d : Diagram K}

/-- The depth of a layer: that of its deepest box. -/
def depthOf (direction : Direction) (d : Diagram K) (layer : List Nat) : K :=
  Scalar.largest (layer.map fun v => direction.main (d.size v))

theorem depthOf_nonneg (layer : List Nat) : 0 ≤ depthOf direction d layer :=
  Scalar.le_largest _ 0 List.mem_cons_self

theorem main_le_depthOf {layer : List Nat} {v : Nat} (hv : v ∈ layer) :
    direction.main (d.size v) ≤ depthOf direction d layer :=
  Scalar.le_largest _ _ (List.mem_cons_of_mem _ (List.mem_map_of_mem hv))

section Layer

variable {spacing main cursor : K} {layer : List Nat}

theorem placeLayer_within {e : Nat × Point K}
    (he : e ∈ placeLayer direction spacing (fun v => direction.cross (d.size v)) main cursor layer) :
    (direction.along (d.outline e)).Within (around main (depthOf direction d layer)) := by
  have hlayer := mem_layer_of_placeLayer he
  rw [placeLayer_eq_row] at he
  obtain ⟨⟨v, center⟩, -, rfl⟩ := List.mem_map.mp he
  rw [Diagram.outline, direction.along_ofCenter]
  exact Stretch.around_within _ (main_le_depthOf hlayer)

theorem placeLayer_ascends (hspacing : 0 ≤ spacing)
    (hcross : ∀ v, 0 ≤ direction.cross (d.size v)) :
    (placeLayer direction spacing (fun v => direction.cross (d.size v)) main cursor layer).Pairwise
      fun e e' => Before spacing (direction.across (d.outline e))
        (direction.across (d.outline e')) := by
  rw [placeLayer_eq_row, List.pairwise_map]
  apply (Tree.row_ascends hspacing (fun v _ => hcross v) cursor).imp
  intro e e' hbefore
  rw [Diagram.outline, Diagram.outline, direction.across_ofCenter, direction.across_ofCenter]
  exact hbefore

end Layer

/-- Of two boxes the first is placed before the other in the same layer, or in an earlier layer. -/
inductive Ahead (settings : LayeredSettings K) (direction : Direction) (d : Diagram K)
    (ranks : List Nat) (e e' : Nat × Point K) : Prop where
  | beside (hrank : ranks.getD e.1 0 = ranks.getD e'.1 0)
      (hacross : Before settings.nodeSpacing (direction.across (d.outline e))
        (direction.across (d.outline e')))
  | above (hrank : ranks.getD e.1 0 < ranks.getD e'.1 0)
      (halong : Before settings.rankSpacing (direction.along (d.outline e))
        (direction.along (d.outline e')))

theorem stack_below (hrank : 0 ≤ settings.rankSpacing) (widest cursor : K) (ls : Layers) :
    ∀ e ∈ stack settings direction d widest cursor ls,
      cursor ≤ (direction.along (d.outline e)).low := by
  induction ls generalizing cursor with
  | nil =>
    intro e he
    cases he
  | cons layer ls ih =>
    intro e he
    have hdepth : 0 ≤ depthOf direction d layer := depthOf_nonneg layer
    rcases List.mem_append.mp he with hlayer | hlater
    · have hlow := (placeLayer_within hlayer).low
      rwa [Stretch.around_eq, ← depthOf, add_sub_cancel_right] at hlow
    · have hlow := ih _ e hlater
      rw [← depthOf] at hlow
      linarith

theorem stack_ahead (hcross : ∀ v, 0 ≤ direction.cross (d.size v))
    (hrank : 0 ≤ settings.rankSpacing) (hnode : 0 ≤ settings.nodeSpacing) {ranks : List Nat}
    {ls : Layers}
    (hlevel : ∀ layer ∈ ls, ∀ v ∈ layer, ∀ w ∈ layer, ranks.getD v 0 = ranks.getD w 0)
    (hascending : ls.Pairwise fun upper lower => ∀ v ∈ upper, ∀ w ∈ lower,
      ranks.getD v 0 < ranks.getD w 0) (widest cursor : K) :
    (stack settings direction d widest cursor ls).Pairwise (Ahead settings direction d ranks) := by
  induction ls generalizing cursor with
  | nil => exact .nil
  | cons layer ls ih =>
    obtain ⟨hlayer, hlevels⟩ := List.forall_mem_cons.mp hlevel
    obtain ⟨hhead, htail⟩ := List.pairwise_cons.mp hascending
    refine List.pairwise_append.mpr ⟨?_, ih hlevels htail _, ?_⟩
    · apply (placeLayer_ascends hnode hcross).imp_of_mem
      intro e e' he he' hbefore
      have hsame := hlayer _ (mem_layer_of_placeLayer he) _ (mem_layer_of_placeLayer he')
      exact .beside hsame hbefore
    · intro e he e' he'
      have hlater : e'.1 ∈ ls.flatten := by
        rw [← keys_stack settings direction d widest _ ls]
        exact Table.mem_keys_of_mem he'
      obtain ⟨lower, hlower, hmem⟩ := List.mem_flatten.mp hlater
      apply Ahead.above (hhead lower hlower _ (mem_layer_of_placeLayer he) _ hmem)
      -- the layer ends at the cursor plus its depth, the next begins the rank spacing below
      have hhigh := (placeLayer_within he).high
      have hlow := stack_below hrank _ _ ls e' he'
      rw [← depthOf] at hlow hhigh
      simp only [Before, around, Scalar.half_exact] at hhigh ⊢
      linarith

theorem table_ahead (hsize : ∀ b ∈ d.boxes, 0 ≤ b.size.width ∧ 0 ≤ b.size.height)
    (hrank : 0 ≤ settings.rankSpacing) (hnode : 0 ≤ settings.nodeSpacing) :
    (table settings direction d).Pairwise (Ahead settings direction d d.ranks) := by
  have hlayering := layering_ordered settings d
  exact stack_ahead (direction.cross_nonneg hsize) hrank hnode hlayering.level
    hlayering.ascending _ _

section Boxes

variable {v w : Nat} {b c : Box K}

theorem exists_entry (h : (d.moveTo (place settings direction d)).boxes[v]? = some b) :
    ∃ e ∈ table settings direction d, e.1 = v ∧ b.bounds = d.outline e :=
  Diagram.outline_of_moveTo (fun _ hv => mem_keys_table settings direction d hv) h

/-- In exact arithmetic the boxes of a layered drawing never meet, if no size and neither spacing is
negative. Boxes of one rank are at least the node spacing apart across the levels. Of two ranks the
lower one comes first, and their boxes are at least the rank spacing apart along the levels. Where no
cycle goes through several boxes that is so for the two ends of every link but a loop, the source
first. -/
theorem boxes_apart_links_forward (hd : d.Built)
    (hsize : ∀ b ∈ d.boxes, 0 ≤ b.size.width ∧ 0 ≤ b.size.height)
    (hrank : 0 ≤ settings.rankSpacing) (hnode : 0 ≤ settings.nodeSpacing)
    (hb : (d.moveTo (place settings direction d)).boxes[v]? = some b)
    (hc : (d.moveTo (place settings direction d)).boxes[w]? = some c) (hne : v ≠ w) :
    b.bounds.intersects c.bounds = false ∧
      (d.ranks.getD v 0 = d.ranks.getD w 0 →
        (direction.across b.bounds).Apart settings.nodeSpacing (direction.across c.bounds)) ∧
      (d.ranks.getD v 0 < d.ranks.getD w 0 →
        (direction.along b.bounds).Before settings.rankSpacing (direction.along c.bounds)) ∧
      (d.Acyclic → d.Links v w →
        (direction.along b.bounds).Before settings.rankSpacing (direction.along c.bounds)) := by
  obtain ⟨e, he, rfl, hbe⟩ := exists_entry hb
  obtain ⟨e', he', rfl, hce⟩ := exists_entry hc
  rw [hbe, hce]
  have hahead := Table.pairwise_or (table_ahead hsize hrank hnode) he he' hne
  have hbeside : d.ranks.getD e.1 0 = d.ranks.getD e'.1 0 →
      Apart settings.nodeSpacing (direction.across (d.outline e))
        (direction.across (d.outline e')) := by
    intro heq
    rcases hahead with (⟨-, h⟩ | ⟨hlt, -⟩) | (⟨-, h⟩ | ⟨hlt, -⟩)
    · exact .inl h
    · omega
    · exact .inr h
    · omega
  have habove : d.ranks.getD e.1 0 < d.ranks.getD e'.1 0 →
      Before settings.rankSpacing (direction.along (d.outline e))
        (direction.along (d.outline e')) := by
    intro hlt
    rcases hahead with (⟨heq, -⟩ | ⟨-, h⟩) | (⟨heq, -⟩ | ⟨hgt, -⟩)
    · omega
    · exact h
    · omega
    · omega
  refine ⟨?_, hbeside, habove, ?_⟩
  · rcases hahead with (⟨-, h⟩ | ⟨-, h⟩) | (⟨-, h⟩ | ⟨-, h⟩)
    · exact direction.intersects_of_across hnode (.inl h)
    · exact direction.intersects_of_along hrank (.inl h)
    · exact direction.intersects_of_across hnode (.inr h)
    · exact direction.intersects_of_along hrank (.inr h)
  · intro hacyclic hlink
    apply habove
    exact Diagram.rank_lt hd.linked ⟨hne, hlink⟩ fun u _ hu => absurd hu (hacyclic.not_behind u)

noncomputable def staircase : Diagram ℝ :=
  .sized [⟨40, 20⟩, ⟨90, 30⟩, ⟨20, 50⟩, ⟨10, 10⟩] [(0, 1), (0, 2), (2, 3), (0, 3), (3, 3)]

theorem boxes_apart_links_forward_staircase :
    staircase.Built ∧ staircase.Acyclic ∧ staircase.ranks = [0, 1, 1, 2] ∧ ∃ a b c : Box ℝ,
    (staircase.moveTo (place ⟨60, 30, 2⟩ .bottomToTop staircase)).boxes[0]? = some a ∧
    (staircase.moveTo (place ⟨60, 30, 2⟩ .bottomToTop staircase)).boxes[1]? = some b ∧
    (staircase.moveTo (place ⟨60, 30, 2⟩ .bottomToTop staircase)).boxes[2]? = some c ∧
    b.bounds.intersects c.bounds = false ∧
    (Direction.bottomToTop.across b.bounds).Apart 30 (Direction.bottomToTop.across c.bounds) ∧
    staircase.Links 0 2 ∧
    (Direction.bottomToTop.along a.bounds).Before 60 (Direction.bottomToTop.along c.bounds) := by
  have hbuilt : staircase.Built := Diagram.built_sized (by decide)
  have hsize : ∀ b ∈ staircase.boxes, 0 ≤ b.size.width ∧ 0 ≤ b.size.height :=
    Diagram.sized_nonneg _ _
  have hlinks : ∀ v w, staircase.Links v w ↔ (v, w) ∈ [(0, 1), (0, 2), (2, 3), (0, 3), (3, 3)] :=
    fun _ _ => Diagram.links_sized
  have hlink : staircase.Links 0 2 := (hlinks 0 2).mpr (by decide)
  have hacyclic : staircase.Acyclic := by
    apply Diagram.acyclic_of_lt
    rintro v w ⟨hne, hlink⟩
    have hall : ∀ e ∈ [(0, 1), (0, 2), (2, 3), (0, 3), (3, 3)], e.1 ≤ e.2 := by decide
    exact lt_of_le_of_ne (hall _ ((hlinks v w).mp hlink)) hne
  have hranks : staircase.ranks = [0, 1, 1, 2] := by decide +kernel
  have hcount : staircase.boxes.size = 4 := rfl
  have hbox : ∀ v < 4, ∃ b : Box ℝ,
      (staircase.moveTo (place ⟨60, 30, 2⟩ .bottomToTop staircase)).boxes[v]? = some b := by
    intro v hv
    exact ⟨_, Array.getElem?_eq_getElem (by simpa [Diagram.moveTo, hcount] using hv)⟩
  obtain ⟨a, ha⟩ := hbox 0 (by decide)
  obtain ⟨b, hb⟩ := hbox 1 (by decide)
  obtain ⟨c, hc⟩ := hbox 2 (by decide)
  have hbc := boxes_apart_links_forward hbuilt hsize (by norm_num) (by norm_num) hb hc (by decide)
  have hac := boxes_apart_links_forward hbuilt hsize (by norm_num) (by norm_num) ha hc (by decide)
  refine ⟨hbuilt, hacyclic, hranks, a, b, c, ha, hb, hc, hbc.1, hbc.2.1 ?_, hlink,
    hac.2.2.2 hacyclic hlink⟩
  rw [hranks]
  rfl

end Boxes

end GraphScribe.Layered
