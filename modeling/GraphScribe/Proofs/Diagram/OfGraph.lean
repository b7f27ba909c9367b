import GraphScribe.Diagram.OfGraph
import GraphScribe.Proofs.Graph.WellFormed

/-! # Diagrams of well-formed graphs

A graph whose edges join its nodes has a diagram: box `i` is node `i`, linked as the edges say. The
order and the labels of the edges do not show in the boxes. -/
namespace GraphScribe

variable {α : Type}

theorem insertSorted_comm (v w : Nat) (us : List Nat) :
    insertSorted v (insertSorted w us) = insertSorted w (insertSorted v us) := by
  induction us with
  | nil => grind [insertSorted]
  | cons u us ih => grind [insertSorted]

section Modify

variable {β γ : Type}

theorem modify_comm {f g : β → β} (hfg : ∀ b, f (g b) = g (f b)) (i j : Nat) (bs : Array β) :
    (bs.modify i f).modify j g = (bs.modify j g).modify i f := by
  apply Array.ext_getElem?
  intro k
  grind

theorem map_modify {view : β → γ} {f : β → β} {f' : γ → γ} (h : ∀ b, view (f b) = f' (view b))
    (i : Nat) (bs : Array β) : (bs.modify i f).map view = (bs.map view).modify i f' := by
  apply Array.ext_getElem?
  intro k
  simp only [Array.getElem?_map, Array.getElem?_modify]
  split
  · simp [Function.comp_def, h]
  · rfl

end Modify

namespace Box

def alone (b : Box α) : Box α := { b with outgoing := [], incoming := [] }

def withSink (w : Nat) (b : Box α) : Box α := { b with outgoing := insertSorted w b.outgoing }

def withSource (v : Nat) (b : Box α) : Box α := { b with incoming := insertSorted v b.incoming }

end Box

def Link.ends (l : Link) : Nat × Nat := (l.source, l.sink)

def joinBoxes (bs : Array (Box α)) (ends : Nat × Nat) : Array (Box α) :=
  (bs.modify ends.1 (.withSink ends.2)).modify ends.2 (.withSource ends.1)

theorem map_joinBoxes {view : Box α → Box α}
    (hsink : ∀ w b, view (.withSink w b) = .withSink w (view b))
    (hsource : ∀ v b, view (.withSource v b) = .withSource v (view b))
    (bs : Array (Box α)) (ends : Nat × Nat) :
    (joinBoxes bs ends).map view = joinBoxes (bs.map view) ends := by
  unfold joinBoxes
  rw [map_modify (hsource _), map_modify (hsink _)]

theorem map_alone_joinBoxes (bs : Array (Box α)) (ends : Nat × Nat) :
    (joinBoxes bs ends).map Box.alone = bs.map Box.alone := by
  have hsink : ∀ b : Box α, (b.withSink ends.2).alone = id b.alone := fun _ => rfl
  have hsource : ∀ b : Box α, (b.withSource ends.1).alone = id b.alone := fun _ => rfl
  unfold joinBoxes
  rw [map_modify hsource, map_modify hsink]
  apply Array.ext_getElem?
  intro k
  simp [Array.getElem?_modify]

/-- Links can be added in any order. -/
instance : RightCommutative (joinBoxes (α := α)) where
  right_comm bs e e' := by
    have hsinks : ∀ v w (b : Box α), (b.withSink v).withSink w = (b.withSink w).withSink v :=
      fun v w b => by simp [Box.withSink, insertSorted_comm]
    have hsources : ∀ v w (b : Box α),
        (b.withSource v).withSource w = (b.withSource w).withSource v :=
      fun v w b => by simp [Box.withSource, insertSorted_comm]
    have hcross : ∀ v w (b : Box α), (b.withSource v).withSink w = (b.withSink w).withSource v :=
      fun _ _ _ => rfl
    unfold joinBoxes
    rw [modify_comm (f := Box.withSource e.1) (g := Box.withSink e'.2) fun b => (hcross _ _ b).symm,
      modify_comm (f := Box.withSink e.2) (g := Box.withSink e'.2) (hsinks _ _),
      modify_comm (f := Box.withSource e.1) (g := Box.withSource e'.1) (hsources _ _),
      modify_comm (f := Box.withSink e.2) (g := Box.withSource e'.1) (hcross _ _)]

namespace Diagram

theorem addLink_boxes (d : Diagram α) (l : Link) :
    (d.addLink l).boxes = joinBoxes d.boxes l.ends := rfl

theorem foldl_addLink_boxes (d : Diagram α) (ls : List Link) :
    (ls.foldl addLink d).boxes = (ls.map Link.ends).foldl joinBoxes d.boxes := by
  induction ls generalizing d with
  | nil => rfl
  | cons l ls ih => rw [List.foldl_cons, ih, addLink_boxes, List.map_cons, List.foldl_cons]

end Diagram

theorem map_foldl_joinBoxes {view : Box α → Box α}
    (hsink : ∀ w b, view (.withSink w b) = .withSink w (view b))
    (hsource : ∀ v b, view (.withSource v b) = .withSource v (view b))
    (ends : List (Nat × Nat)) (bs : Array (Box α)) :
    (ends.foldl joinBoxes bs).map view = ends.foldl joinBoxes (bs.map view) := by
  induction ends generalizing bs with
  | nil => rfl
  | cons e ends ih => rw [List.foldl_cons, ih, map_joinBoxes hsink hsource, List.foldl_cons]

theorem map_alone_foldl_joinBoxes (ends : List (Nat × Nat)) (bs : Array (Box α)) :
    (ends.foldl joinBoxes bs).map Box.alone = bs.map Box.alone := by
  induction ends generalizing bs with
  | nil => rfl
  | cons e ends ih => rw [List.foldl_cons, ih, map_alone_joinBoxes]

namespace Graph

def place (g : Graph α) (e : Edge) : Nat × Nat :=
  (g.nodeIds.idxOf e.source, g.nodeIds.idxOf e.target)

def link (g : Graph α) (e : Edge) : Link := ⟨(g.place e).1, (g.place e).2, e.label⟩

end Graph

namespace Diagram

theorem indexOf_of_mem {g : Graph α} {edge id : String} (h : id ∈ g.nodeIds) :
    indexOf g edge id = .ok (g.nodeIds.idxOf id) := by
  have hfind : g.nodes.findIdx? (fun n => n.id == id) = some (g.nodeIds.idxOf id) := by
    have hsome : (g.nodes.findIdx? fun n => n.id == id).isSome = true := by
      simpa [Graph.nodeIds, List.findIdx?_isSome] using h
    obtain ⟨i, hi⟩ := Option.isSome_iff_exists.mp hsome
    have hidx := (List.findIdx?_eq_some_iff_findIdx_eq.mp hi).2
    rw [hi, ← hidx, List.idxOf, Graph.nodeIds, List.findIdx_map]
    rfl
  unfold indexOf
  rw [hfind]

theorem linkOf_of_mem {g : Graph α} {e : Edge} (hsource : e.source ∈ g.nodeIds)
    (htarget : e.target ∈ g.nodeIds) : linkOf g e = .ok (g.link e) := by
  unfold linkOf
  rw [indexOf_of_mem hsource, indexOf_of_mem htarget]
  rfl

theorem mapM_eq_ok_map {β γ ε : Type} {f : β → Except ε γ} {f' : β → γ} {bs : List β}
    (h : ∀ b ∈ bs, f b = .ok (f' b)) : bs.mapM f = .ok (bs.map f') := by
  induction bs with
  | nil => rfl
  | cons b bs ih =>
    rw [List.mapM_cons, h b List.mem_cons_self, ih fun c hc => h c (List.mem_cons_of_mem b hc)]
    rfl

variable [Scalar α]

def ofWellFormed (m : Metrics α) (g : Graph α) : Diagram α :=
  (g.edges.map g.link).foldl addLink ⟨(g.nodes.map (boxOf m)).toArray, #[]⟩

theorem ofGraph_eq {g : Graph α} (h : g.WellFormed) (m : Metrics α) :
    ofGraph m g = .ok (ofWellFormed m g) := by
  have hlinks : g.edges.mapM (linkOf g) = .ok (g.edges.map g.link) :=
    mapM_eq_ok_map fun e he => linkOf_of_mem (h.joined e he).1 (h.joined e he).2
  unfold ofGraph
  rw [hlinks]
  rfl

theorem ofWellFormed_boxes (m : Metrics α) (g : Graph α) :
    (ofWellFormed m g).boxes =
      (g.edges.map g.place).foldl joinBoxes (g.nodes.map (boxOf m)).toArray := by
  unfold ofWellFormed
  rw [foldl_addLink_boxes, List.map_map]
  rfl

/-- Box by box, links apart, the diagram is the graph's nodes. -/
theorem ofWellFormed_alone (m : Metrics α) (g : Graph α) :
    (ofWellFormed m g).boxes.toList.map Box.alone = g.nodes.map (boxOf m) := by
  have hboxes : (ofWellFormed m g).boxes.map Box.alone =
      (g.nodes.map (boxOf m)).toArray.map Box.alone := by
    rw [ofWellFormed_boxes, map_alone_foldl_joinBoxes]
  have hown : (g.nodes.map (boxOf m)).map Box.alone = g.nodes.map (boxOf m) := by
    rw [List.map_map]
    rfl
  have hlists := congrArg Array.toList hboxes
  rwa [Array.toList_map, Array.toList_map, hown] at hlists

theorem map_ofWellFormed {β : Type} {view : Box α → β} (h : ∀ b, view b.alone = view b)
    (m : Metrics α) (g : Graph α) :
    (ofWellFormed m g).boxes.toList.map view = g.nodes.map fun n => view (boxOf m n) := by
  have halone := congrArg (List.map view) (ofWellFormed_alone m g)
  simpa only [List.map_map, Function.comp_def, h] using halone

end Diagram

end GraphScribe
