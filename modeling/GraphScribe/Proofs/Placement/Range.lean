import GraphScribe.Proofs.Placement.Outcome
import GraphScribe.Proofs.Scalar.Magnitude

/-! # Drawings of moderate size

The check before a layout is taken over looks at the centres only; the drawing is moved and measured
after it. With centres, sizes and a margin of moderate size all that is computed from them is finite.
Without that bound a layout can pass the check and still leave infinite numbers in the graph. -/
namespace GraphScribe

open Double

def Rect.isFinite {α : Type} [Scalar α] (r : Rect α) : Bool :=
  Scalar.isFinite r.x && Scalar.isFinite r.y && Scalar.isFinite r.width && Scalar.isFinite r.height

namespace Rect

theorem isFinite_mk {j k : ℕ} {x y width height : Float} (hx : Within j x) (hy : Within j y)
    (hwidth : Within k width) (hheight : Within k height) :
    (Rect.mk x y width height).isFinite = true := by
  have hx := hx.isFinite
  have hy := hy.isFinite
  have hwidth := hwidth.isFinite
  have hheight := hheight.isFinite
  simp [Rect.isFinite, Scalar.isFinite, hx, hy, hwidth, hheight]

/-- The sides lie within `2 ^ j` units of the origin. -/
structure Near (j : ℕ) (r : Rect Float) : Prop where
  left : Within j r.left
  top : Within j r.top
  right : Within j r.right
  bottom : Within j r.bottom
  width : Within (j + 1) r.width
  height : Within (j + 1) r.height

variable {j : ℕ} {r s : Rect Float}

theorem Near.union (hr : r.Near j) (hs : s.Near j) (hlow : 53 ≤ j) (hj : j ≤ 2095) :
    (r.union s).Near j := by
  have hleft := hr.left.min hs.left
  have htop := hr.top.min hs.top
  have hright := hr.right.max hs.right
  have hbottom := hr.bottom.max hs.bottom
  refine ⟨hleft, htop, ?_, ?_, ?_, ?_⟩
  · exact hleft.add_sub hright hlow hj
  · exact htop.add_sub hbottom hlow hj
  · exact hright.sub hleft (by omega)
  · exact hbottom.sub htop (by omega)

theorem near_unionAll? {rs : List (Rect Float)} (h : unionAll? rs = some r)
    (hrs : ∀ s ∈ rs, s.Near j) (hlow : 53 ≤ j) (hj : j ≤ 2095) : r.Near j := by
  cases rs with
  | nil => cases h
  | cons s rs =>
    cases h
    have hs : s.Near j := hrs s List.mem_cons_self
    have hrest : ∀ t ∈ rs, t.Near j := fun t ht => hrs t (List.mem_cons_of_mem s ht)
    clear hrs
    induction rs generalizing s with
    | nil => exact hs
    | cons t rs ih =>
      have ht : t.Near j := hrest t List.mem_cons_self
      exact ih (s.union t) (hs.union ht hlow hj) fun u hu => hrest u (List.mem_cons_of_mem t hu)

theorem near_ofCenter {c : Point Float} {size : Size Float} (hx : Within j c.x)
    (hy : Within j c.y) (hwidth : Within j size.width) (hheight : Within j size.height)
    (hj : j ≤ 2095) : (Rect.ofCenter c size).Near (j + 2) := by
  have hleft := hx.sub (hwidth.half (by omega)) (by omega)
  have htop := hy.sub (hheight.half (by omega)) (by omega)
  refine ⟨?_, ?_, ?_, ?_, ?_, ?_⟩
  · exact hleft.mono (by omega)
  · exact htop.mono (by omega)
  · exact hleft.add (hwidth.mono (by omega)) (by omega)
  · exact htop.add (hheight.mono (by omega)) (by omega)
  · exact hwidth.mono (by omega)
  · exact hheight.mono (by omega)

end Rect

structure Box.Moderate (b : Box Float) : Prop where
  x : Double.Moderate b.position.x
  y : Double.Moderate b.position.y
  width : Double.Moderate b.size.width
  height : Double.Moderate b.size.height

instance (b : Box Float) : Decidable b.Moderate :=
  decidable_of_iff (Double.Moderate b.position.x ∧ Double.Moderate b.position.y ∧
      Double.Moderate b.size.width ∧ Double.Moderate b.size.height)
    ⟨fun ⟨hx, hy, hwidth, hheight⟩ => ⟨hx, hy, hwidth, hheight⟩,
      fun ⟨hx, hy, hwidth, hheight⟩ => ⟨hx, hy, hwidth, hheight⟩⟩

namespace Engine

variable {d : Diagram Float} {margin : Float}

theorem near_bounds (hboxes : ∀ b ∈ d.boxes.toList, b.Moderate) {r : Rect Float}
    (hr : d.bounds? = some r) : r.Near 2095 := by
  apply Rect.near_unionAll? hr _ (by omega) le_rfl
  intro s hs
  obtain ⟨b, hb, rfl⟩ := List.mem_map.mp hs
  have hmoderate := hboxes b hb
  exact Rect.near_ofCenter hmoderate.x.within hmoderate.y.within hmoderate.width.within
    hmoderate.height.within (by omega)

theorem firstNonFinite?_of_moderate (hboxes : ∀ b ∈ d.boxes.toList, b.Moderate) :
    firstNonFinite? d = none := by
  apply List.find?_eq_none.mpr
  intro b hb
  have hx := (hboxes b hb).x.within.isFinite
  have hy := (hboxes b hb).y.within.isFinite
  simp [Point.isFinite, Scalar.isFinite, hx, hy]

theorem shift_within (hmargin : Double.Moderate margin)
    (hboxes : ∀ b ∈ d.boxes.toList, b.Moderate) :
    Within 2096 (shift margin d).x ∧ Within 2096 (shift margin d).y := by
  unfold shift
  cases hbounds : d.bounds? with
  | none => exact ⟨Within.zero 2096, Within.zero 2096⟩
  | some r =>
    have hr := near_bounds hboxes hbounds
    have hm : Within 2095 margin := hmargin.within.mono (by omega)
    exact ⟨hm.sub hr.left (by omega), hm.sub hr.top (by omega)⟩

theorem positions_finite (hmargin : Double.Moderate margin)
    (hboxes : ∀ b ∈ d.boxes.toList, b.Moderate) :
    ∀ c ∈ (frame margin d).1.positions, c.isFinite = true := by
  intro c hc
  rw [positions_frame] at hc
  obtain ⟨q, hq, rfl⟩ := List.mem_map.mp hc
  obtain ⟨b, hb, rfl⟩ := List.mem_map.mp hq
  obtain ⟨hshiftx, hshifty⟩ := shift_within hmargin hboxes
  have hx : Within 2096 b.position.x := (hboxes b hb).x.within.mono (by omega)
  have hy : Within 2096 b.position.y := (hboxes b hb).y.within.mono (by omega)
  have hsumx := hx.add hshiftx (by omega)
  have hsumy := hy.add hshifty (by omega)
  exact Bool.and_eq_true_iff.mpr ⟨hsumx.isFinite, hsumy.isFinite⟩

theorem canvas_finite (hmargin : Double.Moderate margin)
    (hboxes : ∀ b ∈ d.boxes.toList, b.Moderate) : (frame margin d).2.isFinite = true := by
  have hm := hmargin.within
  have htwice : Within 2096 (Scalar.ofNat 2 * margin) := (hm.two_mul (by omega)).mono (by omega)
  have hcorner := hm.sub hm (by omega)
  unfold frame
  cases hbounds : d.bounds? with
  | none => exact Rect.isFinite_mk (Within.zero 0) (Within.zero 0) htwice htwice
  | some r =>
    have hr := near_bounds hboxes hbounds
    exact Rect.isFinite_mk hcorner hcorner (hr.width.add htwice (by omega))
      (hr.height.add htwice (by omega))

end Engine

/-- After any session, a layout whose centres, sizes and margin are of moderate size succeeds, and
all the numbers that it leaves in the graph are finite. -/
theorem Operation.layout_finite (ops : List (Operation Float)) (e : Engine Float)
    (p : Placement Float) {d : Diagram Float}
    (hd : Diagram.ofGraph e.metrics (session ops .empty) = .ok d)
    (hmargin : Double.Moderate e.settings.margin)
    (hboxes : ∀ b ∈ (d.moveTo (p.place d)).boxes.toList, b.Moderate) :
    ∃ h, (Edit.applyPlacement e p).run (session ops .empty) = .ok () h ∧
      (∀ n ∈ h.nodes, n.position.isFinite = true) ∧ h.canvas.isFinite = true := by
  have hwell : (session ops (.empty : Graph Float)).WellFormed :=
    session_wellFormed ops Graph.wellFormed_empty
  generalize session ops .empty = g at hd hwell
  rw [Diagram.ofGraph_eq hwell] at hd
  cases hd
  change ∀ b ∈ (Engine.moved e p g).boxes.toList, b.Moderate at hboxes
  have hfirst := Engine.firstNonFinite?_of_moderate hboxes
  have hlength : (Engine.frame e.settings.margin (Engine.moved e p g)).1.positions.length =
      g.nodes.length := by
    rw [Engine.positions_frame, List.length_map, Diagram.positions_length, Engine.count_moved]
  rw [Engine.run_eq hwell, hfirst]
  refine ⟨_, rfl, ?_, Engine.canvas_finite hmargin hboxes⟩
  intro n hn
  apply Engine.positions_finite hmargin hboxes
  rw [← Graph.positions_moveTo_go g.nodes _ hlength]
  exact List.mem_map_of_mem hn

namespace Operation

def pair : List (Operation Float) :=
  [.addNode ⟨"a", "", .origin, false, .rectangle⟩, .addNode ⟨"b", "", .origin, false, .rectangle⟩]

def apart (x : Float) : Placement Float := .fixed [⟨-x, 0⟩, ⟨x, 0⟩]

theorem layout_finite_pair :
    ∃ h, (Edit.applyPlacement ⟨.standard, .standard⟩ (apart (twoPow 1019))).run
        (session pair .empty) = .ok () h ∧
      (∀ n ∈ h.nodes, n.position.isFinite = true) ∧ h.canvas.isFinite = true := by
  have hd : Diagram.ofGraph (.standard : Metrics Float) (session pair .empty) =
      .ok ⟨((session pair .empty).nodes.map (Diagram.boxOf .standard)).toArray, #[]⟩ := rfl
  exact layout_finite pair ⟨.standard, .standard⟩ (apart (twoPow 1019)) hd (by decide +kernel)
    (by decide +kernel)

/-- Farther apart, the nodes still pass the check, but the second is moved to infinity, and the
canvas is infinitely wide. -/
theorem layout_overflows_pair :
    ∃ h, (Edit.applyPlacement ⟨.standard, .standard⟩ (apart (twoPow 1023))).run
        (session pair .empty) = .ok () h ∧
      (∃ n ∈ h.nodes, n.position.isFinite = false) ∧ h.canvas.isFinite = false := by
  have hrun : Engine.outcome ((Edit.applyPlacement ⟨.standard, .standard⟩
      (apart (twoPow 1023))).run (session pair .empty)) =
        .ok ([⟨0, 32⟩, ⟨1 / 0, 32⟩], ⟨0, 0, 1 / 0, 64⟩) := by decide +kernel
  obtain ⟨h, hok⟩ := Engine.run_of_outcome_ok hrun
  rw [hok] at hrun
  obtain ⟨hpositions, hcanvas⟩ := Prod.mk.inj (Except.ok.inj hrun)
  refine ⟨h, hok, ?_, ?_⟩
  · have hmem : (⟨1 / 0, 32⟩ : Point Float) ∈ h.nodes.map (·.position) := by
      rw [hpositions]
      exact List.mem_cons_of_mem _ List.mem_cons_self
    obtain ⟨n, hn, hposition⟩ := List.mem_map.mp hmem
    refine ⟨n, hn, ?_⟩
    rw [hposition]
    decide +kernel
  · rw [hcanvas]
    decide +kernel

end Operation

end GraphScribe
