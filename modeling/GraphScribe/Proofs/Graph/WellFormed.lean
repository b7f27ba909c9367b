import GraphScribe.Graph.Basic
import Mathlib.Data.List.Perm.Basic

/-! # Well-formed graphs

The ids of nodes and edges are pairwise distinct, the ids in use are exactly these, and every edge
joins nodes of the graph. Every operation that succeeds on such a graph gives another. -/
namespace GraphScribe.Graph

variable {α : Type}

def nodeIds (g : Graph α) : List String := g.nodes.map (·.id)

def edgeIds (g : Graph α) : List String := g.edges.map (·.id)

structure WellFormed (g : Graph α) : Prop where
  distinct : (g.nodeIds ++ g.edgeIds).Nodup
  ids_perm : g.ids.Perm (g.nodeIds ++ g.edgeIds)
  joined : ∀ e ∈ g.edges, e.source ∈ g.nodeIds ∧ e.target ∈ g.nodeIds

section Lookup

variable {g : Graph α} {id : String}

theorem containsId_iff : g.containsId id = true ↔ id ∈ g.ids := List.contains_iff_mem

theorem WellFormed.containsId_iff (h : g.WellFormed) :
    g.containsId id = true ↔ id ∈ g.nodeIds ++ g.edgeIds :=
  Graph.containsId_iff.trans h.ids_perm.mem_iff

theorem node?_isSome : (g.node? id).isSome = true ↔ id ∈ g.nodeIds := by
  simp [node?, nodeIds]

theorem node?_id {n : Node α} (h : g.node? id = some n) : n.id = id := by
  simpa using List.find?_some h

theorem edge?_id {e : Edge} (h : g.edge? id = some e) : e.id = id := by
  simpa using List.find?_some h

theorem missingEnd?_eq_none {e : Edge} :
    g.missingEnd? e = none ↔ e.source ∈ g.nodeIds ∧ e.target ∈ g.nodeIds := by
  simp [missingEnd?, ← node?_isSome, Option.isSome_iff_ne_none]

end Lookup

/-- Only ids and the ends of edges matter. -/
theorem WellFormed.congr {g h : Graph α} (hg : g.WellFormed) (hnodes : h.nodeIds = g.nodeIds)
    (hedges : h.edges.map (fun e => (e.id, e.source, e.target)) =
      g.edges.map fun e => (e.id, e.source, e.target)) (hids : h.ids = g.ids) :
    h.WellFormed := by
  have hedgeIds : h.edgeIds = g.edgeIds := by
    have hfirst := congrArg (List.map Prod.fst) hedges
    simpa [edgeIds, Function.comp_def] using hfirst
  refine ⟨?_, ?_, ?_⟩
  · rw [hnodes, hedgeIds]
    exact hg.distinct
  · rw [hnodes, hedgeIds, hids]
    exact hg.ids_perm
  · intro e he
    have hmem : (e.id, e.source, e.target) ∈ g.edges.map fun e => (e.id, e.source, e.target) := by
      rw [← hedges]
      exact List.mem_map_of_mem he
    obtain ⟨f, hf, heq⟩ := List.mem_map.mp hmem
    obtain ⟨-, hsource, htarget⟩ : _ ∧ f.source = e.source ∧ f.target = e.target := by
      simpa using heq
    rw [hnodes, ← hsource, ← htarget]
    exact hg.joined f hf

section Additions

variable {g g' : Graph α}

theorem wellFormed_empty [Scalar α] : (empty : Graph α).WellFormed :=
  ⟨List.nodup_nil, List.Perm.refl [], List.forall_mem_nil _⟩

theorem WellFormed.addNode (h : g.WellFormed) {n : Node α} (hadd : g.addNode n = .ok g') :
    g'.WellFormed := by
  unfold Graph.addNode at hadd
  split at hadd
  · cases hadd
  · rename_i hfree
    cases hadd
    rw [h.containsId_iff] at hfree
    have hperm : ((g.nodes ++ [n]).map (·.id) ++ g.edgeIds).Perm
        (n.id :: (g.nodeIds ++ g.edgeIds)) := by
      rw [List.map_append, List.append_assoc]
      exact List.perm_middle
    refine ⟨?_, ?_, ?_⟩
    · exact hperm.nodup_iff.mpr (List.nodup_cons.mpr ⟨hfree, h.distinct⟩)
    · exact (h.ids_perm.cons n.id).trans hperm.symm
    · intro e he
      obtain ⟨hsource, htarget⟩ := h.joined e he
      simp only [nodeIds, List.map_append]
      exact ⟨List.mem_append_left _ hsource, List.mem_append_left _ htarget⟩

theorem WellFormed.addEdge (h : g.WellFormed) {e : Edge} (hadd : g.addEdge e = .ok g') :
    g'.WellFormed := by
  unfold Graph.addEdge at hadd
  split at hadd
  · cases hadd
  · rename_i hfree
    split at hadd
    · cases hadd
    · rename_i hends
      cases hadd
      rw [h.containsId_iff] at hfree
      have hperm : (g.nodeIds ++ (g.edges ++ [e]).map (·.id)).Perm
          (e.id :: (g.nodeIds ++ g.edgeIds)) := by
        rw [List.map_append, ← List.append_assoc]
        exact List.perm_append_singleton _ _
      refine ⟨?_, ?_, ?_⟩
      · exact hperm.nodup_iff.mpr (List.nodup_cons.mpr ⟨hfree, h.distinct⟩)
      · exact (h.ids_perm.cons e.id).trans hperm.symm
      · exact List.forall_mem_append.mpr
          ⟨h.joined, List.forall_mem_singleton.mpr (missingEnd?_eq_none.mp hends)⟩

theorem bind_eq_ok {β γ ε : Type} {x : Except ε β} {f : β → Except ε γ} {c : γ} :
    x >>= f = .ok c ↔ ∃ b, x = .ok b ∧ f b = .ok c := by
  cases x with
  | error e => exact iff_of_false (by rintro ⟨⟩) (by rintro ⟨_, ⟨⟩, _⟩)
  | ok b => exact ⟨fun h => ⟨b, rfl, h⟩, by rintro ⟨_, ⟨⟩, h⟩; exact h⟩

theorem wellFormed_foldlM {β ε : Type} {f : Graph α → β → Except ε (Graph α)}
    (hf : ∀ {g g' b}, g.WellFormed → f g b = .ok g' → g'.WellFormed) {bs : List β}
    (h : g.WellFormed) (hfold : bs.foldlM f g = .ok g') : g'.WellFormed := by
  induction bs generalizing g with
  | nil =>
    cases hfold
    exact h
  | cons b bs ih =>
    rw [List.foldlM_cons, bind_eq_ok] at hfold
    obtain ⟨m, hstep, hrest⟩ := hfold
    exact ih (hf h hstep) hrest

theorem wellFormed_ofData [Scalar α] {d : GraphData α} (h : ofData d = .ok g) : g.WellFormed := by
  unfold ofData at h
  rw [bind_eq_ok] at h
  obtain ⟨m, hnodes, h⟩ := h
  rw [bind_eq_ok] at h
  obtain ⟨k, hedges, h⟩ := h
  cases h
  have hm := wellFormed_foldlM (fun hg hadd => hg.addNode hadd) wellFormed_empty hnodes
  exact (wellFormed_foldlM (fun hg hadd => hg.addEdge hadd) hm hedges).congr rfl rfl rfl

end Additions

section Removals

variable {g g' : Graph α} {id : String}

theorem map_eraseP_id {β : Type} (key : β → String) (bs : List β) (id : String) :
    (bs.eraseP fun b => key b == id).map key = (bs.map key).erase id := by
  rw [List.erase_eq_eraseP', List.eraseP_map]
  rfl

theorem foldl_erase_append (xs ys : List String) : xs.foldl List.erase (xs ++ ys) = ys := by
  induction xs with
  | nil => rfl
  | cons x xs ih =>
    rw [List.cons_append, List.foldl_cons, List.erase_cons_head]
    exact ih

/-- The ids in use after a node and the edges that touch it have given theirs up. -/
theorem ids_perm_removeNode (h : g.WellFormed) (hid : id ∈ g.nodeIds) :
    (((g.edges.filter (·.touches id)).map (·.id)).foldl List.erase (g.ids.erase id)).Perm
      (g.nodeIds.erase id ++ (g.edges.filter fun e => !e.touches id).map (·.id)) := by
  let gone := (g.edges.filter (·.touches id)).map (·.id)
  let kept := (g.edges.filter fun e => !e.touches id).map (·.id)
  have hsplit : (gone ++ kept).Perm g.edgeIds := by
    have hfilter := (List.filter_append_perm (·.touches id) g.edges).map (·.id)
    rwa [List.map_append] at hfilter
  have hids : (g.ids.erase id).Perm (gone ++ (g.nodeIds.erase id ++ kept)) := calc
    (g.ids.erase id).Perm ((g.nodeIds ++ g.edgeIds).erase id) := h.ids_perm.erase id
    _ = g.nodeIds.erase id ++ g.edgeIds := List.erase_append_left _ hid
    List.Perm _ (g.nodeIds.erase id ++ (gone ++ kept)) := (hsplit.symm).append_left _
    List.Perm _ (gone ++ (g.nodeIds.erase id ++ kept)) := by
      rw [← List.append_assoc, ← List.append_assoc]
      exact List.perm_append_comm.append_right kept
  have hdiff := hids.diff_right gone
  rwa [List.diff_eq_foldl, List.diff_eq_foldl, foldl_erase_append] at hdiff

theorem WellFormed.removeNode (h : g.WellFormed) {n : Node α}
    (hremove : g.removeNode id = .ok (n, g')) : g'.WellFormed := by
  unfold Graph.removeNode at hremove
  split at hremove
  · cases hremove
  · rename_i m hm
    cases hremove
    have hid : id ∈ g.nodeIds := node?_isSome.mp (by rw [hm]; rfl)
    have hnodes : (g.nodes.eraseP fun n => n.id == id).map (·.id) = g.nodeIds.erase id :=
      map_eraseP_id _ _ _
    have hsub : ((g.edges.filter fun e => !e.touches id).map (·.id)).Sublist g.edgeIds :=
      List.filter_sublist.map _
    refine ⟨?_, ?_, ?_⟩
    · simp only [nodeIds, edgeIds, hnodes]
      exact h.distinct.sublist (List.erase_sublist.append hsub)
    · simp only [nodeIds, edgeIds, hnodes]
      exact ids_perm_removeNode h hid
    · intro e he
      obtain ⟨he, htouch⟩ := List.mem_filter.mp he
      obtain ⟨hsource, htarget⟩ := h.joined e he
      have hne : e.source ≠ id ∧ e.target ≠ id := by simpa [Edge.touches] using htouch
      simp only [nodeIds, hnodes]
      exact ⟨(List.mem_erase_of_ne hne.1).mpr hsource, (List.mem_erase_of_ne hne.2).mpr htarget⟩

theorem WellFormed.removeEdge (h : g.WellFormed) {e : Edge}
    (hremove : g.removeEdge id = .ok (e, g')) : g'.WellFormed := by
  unfold Graph.removeEdge at hremove
  split at hremove
  · cases hremove
  · rename_i f hf
    cases hremove
    have hmem : id ∈ g.edgeIds := by
      rw [← edge?_id hf]
      exact List.mem_map_of_mem (List.mem_of_find?_eq_some hf)
    have hid : id ∉ g.nodeIds := fun hn => (List.nodup_append.mp h.distinct).2.2 id hn id hmem rfl
    have hedges : (g.edges.eraseP fun e => e.id == id).map (·.id) = g.edgeIds.erase id :=
      map_eraseP_id _ _ _
    have hids : g.nodeIds ++ g.edgeIds.erase id = (g.nodeIds ++ g.edgeIds).erase id :=
      (List.erase_append_right _ hid).symm
    refine ⟨?_, ?_, ?_⟩
    · simp only [nodeIds, edgeIds, hedges] at hids ⊢
      rw [hids]
      exact h.distinct.erase id
    · simp only [nodeIds, edgeIds, hedges] at hids ⊢
      rw [hids]
      exact h.ids_perm.erase id
    · intro e he
      exact h.joined e (List.mem_of_mem_eraseP he)

end Removals

section Changes

variable {g g' : Graph α} {id : String}

theorem map_modifyFirst {β γ : Type} (key : β → γ) (p : β → Bool) {f : β → β}
    (hf : ∀ b, key (f b) = key b) (bs : List β) : (modifyFirst p f bs).map key = bs.map key := by
  induction bs with
  | nil => rfl
  | cons b bs ih =>
    unfold modifyFirst
    split
    · simp [hf]
    · simp [ih]

theorem WellFormed.setPosition (h : g.WellFormed) {position : Point α}
    (hset : g.setPosition id position = .ok g') : g'.WellFormed := by
  unfold Graph.setPosition at hset
  split at hset
  · cases hset
  · cases hset
    refine h.congr (map_modifyFirst Node.id _ ?_ g.nodes) rfl rfl
    exact fun _ => rfl

theorem WellFormed.setLabel (h : g.WellFormed) {label : String}
    (hset : g.setLabel id label = .ok g') : g'.WellFormed := by
  unfold Graph.setLabel at hset
  split at hset
  · cases hset
    refine h.congr (map_modifyFirst Node.id _ ?_ g.nodes) rfl rfl
    exact fun _ => rfl
  · split at hset
    · cases hset
      refine h.congr rfl (map_modifyFirst _ _ ?_ g.edges) rfl
      exact fun _ => rfl
    · cases hset

theorem map_moveTo_go [Scalar α] (ns : List (Node α)) (ps : List (Point α)) :
    (moveTo.go ns ps).map (·.id) = ns.map (·.id) := by
  induction ns generalizing ps with
  | nil => cases ps <;> rfl
  | cons n ns ih =>
    cases ps with
    | nil => rfl
    | cons p ps => simp [moveTo.go, ih]

theorem WellFormed.placed [Scalar α] (h : g.WellFormed) (positions : List (Point α))
    (canvas : Rect α) : { g.moveTo positions with canvas := canvas }.WellFormed :=
  h.congr (map_moveTo_go _ _) rfl rfl

end Changes

end GraphScribe.Graph
