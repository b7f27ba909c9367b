import GraphScribe.Proofs.Placement.Inputs
import GraphScribe.Scalar.Double

/-! # Loops and copies of links

Neighbour lists ascend, so what they hold besides loops is fixed by how many links there are between
different boxes, and the order in which a search goes on from a box by which boxes it is linked with.
No placement notices loops, therefore, wherever they come among the links, and those that only search
do not notice further copies of a link. -/
namespace GraphScribe

variable {α : Type}

def Link.IsLoop (l : Link) : Prop := l.source = l.sink

instance (l : Link) : Decidable l.IsLoop := inferInstanceAs (Decidable (_ = _))

namespace Diagram

theorem view_addLinks {β : Type} {view : Box α → β} (h : ∀ b, view b.alone = view b)
    (d : Diagram α) (ls : List Link) :
    (ls.foldl Diagram.addLink d).boxes.map view = d.boxes.map view := by
  have hview : ∀ bs : Array (Box α), bs.map view = (bs.map Box.alone).map view := by
    intro bs
    rw [Array.map_map]
    exact congrArg bs.map (funext h).symm
  rw [hview, foldl_addLink_boxes, map_alone_foldl_joinBoxes, ← hview]

theorem view_addLinks_eq {β : Type} {view : Box α → β} (h : ∀ b, view b.alone = view b)
    (d : Diagram α) (ls ls' : List Link) :
    (ls.foldl Diagram.addLink d).boxes.map view = (ls'.foldl Diagram.addLink d).boxes.map view :=
  (view_addLinks h d ls).trans (view_addLinks h d ls').symm

theorem pulls_eq (d : Diagram α) : Force.pulls d = d.properEnds := by
  rw [Force.pulls, properEnds, ends, List.filter_map]
  rfl

theorem properEnds_addLinks (d : Diagram α) (ls : List Link) :
    (ls.foldl Diagram.addLink d).properEnds =
      d.properEnds ++ (ls.filter fun l => ¬l.IsLoop).map Link.ends := by
  have hloop : ((fun ends : Nat × Nat => ends.1 != ends.2) ∘ Link.ends) =
      fun l => decide ¬l.IsLoop := by
    funext l
    by_cases h : l.source = l.sink <;> simp [Link.ends, Link.IsLoop, h]
  rw [properEnds, ends_addLinks, List.filter_append, List.filter_map, hloop]
  rfl

variable [Scalar α] {d : Diagram α}

theorem sameLinks_addLinks (hd : d.Built) {ls : List Link}
    (hls : ∀ l ∈ ls, l.source < d.count ∧ l.sink < d.count) :
    (ls.foldl Diagram.addLink d).SameLinks ((ls.filter fun l => ¬l.IsLoop).foldl Diagram.addLink d)
      := by
  have hproper : ∀ l ∈ ls.filter fun l => ¬l.IsLoop, l.source < d.count ∧ l.sink < d.count :=
    fun l hl => hls l (List.mem_filter.mp hl).1
  have hflags : (ls.foldl Diagram.addLink d).boxes.map Box.isRoot =
      ((ls.filter fun l => ¬l.IsLoop).foldl Diagram.addLink d).boxes.map Box.isRoot :=
    view_addLinks_eq (fun _ => rfl) d _ _
  apply (hd.addLinks hls).sameLinks (hd.addLinks hproper)
  · exact count_of_view hflags
  · exact isRoot_of_view hflags
  · rw [properEnds_addLinks, properEnds_addLinks, List.filter_filter]
    simp

theorem sameWays_addCopies (hd : d.Built) {ls : List Link}
    (hls : ∀ l ∈ ls, d.Links l.source l.sink) : (ls.foldl Diagram.addLink d).SameWays d := by
  have hflags : (ls.foldl Diagram.addLink d).boxes.map Box.isRoot = d.boxes.map Box.isRoot :=
    view_addLinks (fun _ => rfl) d ls
  apply (hd.addLinks fun l hl => hd.linked.lt (hls l hl)).sameWays hd
  · exact count_of_view hflags
  · exact isRoot_of_view hflags
  · intro v w _
    rw [Links, Links, ends_addLinks, List.mem_append]
    constructor
    · rintro (hold | hnew)
      · exact hold
      · obtain ⟨l, hl, hends⟩ := List.mem_map.mp hnew
        exact hends ▸ hls l hl
    · exact .inl

end Diagram

namespace Algorithm

variable [Scalar α] {d : Diagram α}

/-- Whatever links are added, no placement notices the loops among them; and those that only search
do not notice links that are there already. -/
theorem place_addRedundant (hd : d.Built) (settings : LayoutSettings α) (direction : Direction) :
    (∀ a : Algorithm, ∀ ls : List Link, (∀ l ∈ ls, l.source < d.count ∧ l.sink < d.count) →
      (a.placement settings direction).place (ls.foldl Diagram.addLink d) =
        (a.placement settings direction).place
          ((ls.filter fun l => ¬l.IsLoop).foldl Diagram.addLink d)) ∧
    ∀ a ∈ [tree, radialTree, circular, planar], ∀ ls : List Link,
      (∀ l ∈ ls, d.Links l.source l.sink) →
      (a.placement settings direction).place (ls.foldl Diagram.addLink d) =
        (a.placement settings direction).place d := by
  constructor
  · intro a ls hls
    apply a.place_of_sameLinks settings direction (Diagram.sameLinks_addLinks hd hls)
    · exact Diagram.view_addLinks_eq (fun _ => rfl) d _ _
    · exact Diagram.view_addLinks_eq (fun _ => rfl) d _ _
    · rw [Diagram.pulls_eq, Diagram.pulls_eq, Diagram.properEnds_addLinks,
        Diagram.properEnds_addLinks, List.filter_filter]
      simp
  · intro a ha ls hls
    apply place_of_sameWays ha settings direction (Diagram.sameWays_addCopies hd hls)
    exact Diagram.view_addLinks (fun _ => rfl) d ls

def detour : Diagram Float := Diagram.sketch 3 [(0, 1), (2, 1), (1, 2)]

theorem place_addRedundant_detour :
    detour.Built ∧ detour.Links 2 1 ∧
      (spring.placement .standard .topToBottom).place
          ([⟨1, 1, "a"⟩, ⟨0, 2, "b"⟩, ⟨2, 2, "c"⟩].foldl Diagram.addLink detour) =
        (spring.placement .standard .topToBottom).place
          ([⟨0, 2, "b"⟩].foldl Diagram.addLink detour) ∧
      (tree.placement .standard .leftToRight).place
          ([⟨2, 1, "again"⟩].foldl Diagram.addLink detour) =
        (tree.placement .standard .leftToRight).place detour ∧
      ([⟨1, 1, "a"⟩, ⟨0, 2, "b"⟩, ⟨2, 2, "c"⟩].foldl Diagram.addLink detour).successors 1 = [1, 2] ∧
      ([⟨2, 1, "again"⟩].foldl Diagram.addLink detour).reachable 1 = [2, 0, 2, 2] := by
  have hbuilt : detour.Built := Diagram.built_sketch (by decide)
  have hlink : detour.Links 2 1 := Diagram.links_sketch.mpr (by decide)
  have hcount : detour.count = 3 := by decide +kernel
  refine ⟨hbuilt, hlink, ?_, ?_, by decide +kernel, by decide +kernel⟩
  · apply (place_addRedundant hbuilt .standard .topToBottom).1 spring
    rw [hcount]
    decide
  · apply (place_addRedundant hbuilt .standard .leftToRight).2 tree (by decide)
    simpa using hlink

end Algorithm

end GraphScribe
