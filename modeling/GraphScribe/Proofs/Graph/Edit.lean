import GraphScribe.Graph.Edit
import GraphScribe.Proofs.Graph.WellFormed

/-! # Changes in place

Step by step on one graph, an operation comes to the same as the function that gives a new graph; and
where it fails, it has written nothing. -/
namespace GraphScribe.Edit

variable {α β γ ε ε' : Type}

/-- How a function that gives a new graph or fails comes out on the graph itself. -/
def settle (g : Graph α) : Except ε (β × Graph α) → EStateM.Result ε (Graph α) β
  | .ok (b, h) => .ok b h
  | .error e => .error e g

@[simp] theorem settle_ok (g h : Graph α) (b : β) :
    settle (ε := ε) g (.ok (b, h)) = .ok b h := rfl

@[simp] theorem settle_error (g : Graph α) (e : ε) :
    settle (β := β) g (.error e) = .error e g := rfl

/-- The steps do what the function says, and write nothing if they fail. -/
def InPlace (m : Edit α ε β) (f : Graph α → Except ε (β × Graph α)) : Prop :=
  ∀ g, m.run g = settle g (f g)

def outcome : EStateM.Result ε (Graph α) β → Except ε (β × Graph α)
  | .ok b h => .ok (b, h)
  | .error e _ => .error e

theorem outcome_settle (g : Graph α) (x : Except ε (β × Graph α)) :
    outcome (settle g x) = x := by
  cases x <;> rfl

theorem InPlace.outcome_run {m : Edit α ε β} {f : Graph α → Except ε (β × Graph α)}
    (h : InPlace m f) (g : Graph α) : outcome (m.run g) = f g := by
  rw [h g, outcome_settle]

theorem outcome_bind (m : Edit α ε β) (f : β → Edit α ε γ) (g : Graph α) :
    outcome ((m >>= f).run g) =
      (outcome (m.run g)).bind fun r => outcome ((f r.1).run r.2) := by
  rw [EStateM.run_bind]
  cases m.run g <;> rfl

/-- The steps keep graphs well-formed, and write nothing if they fail. -/
structure Sound (m : Edit α ε β) : Prop where
  kept : ∀ {g b h}, g.WellFormed → m.run g = .ok b h → h.WellFormed
  unchanged : ∀ {g e h}, m.run g = .error e h → h = g

section Sound

variable {m : Edit α ε β}

theorem InPlace.sound {f : Graph α → Except ε (β × Graph α)} (h : InPlace m f)
    (hf : ∀ {g b k}, g.WellFormed → f g = .ok (b, k) → k.WellFormed) : Sound m where
  kept := by
    intro g b k hg hrun
    rw [h g] at hrun
    cases hfg : f g with
    | error e =>
      rw [hfg] at hrun
      cases hrun
    | ok r =>
      rw [hfg] at hrun
      cases hrun
      exact hf hg hfg
  unchanged := by
    intro g e k hrun
    rw [h g] at hrun
    cases hfg : f g with
    | error e =>
      rw [hfg] at hrun
      cases hrun
      rfl
    | ok r =>
      rw [hfg] at hrun
      cases hrun

theorem InPlace.sound_of_map {m : Edit α ε Unit} {f : Graph α → Except ε (Graph α)}
    (h : InPlace m fun g => (f g).map fun k => ((), k))
    (hf : ∀ {g k}, g.WellFormed → f g = .ok k → k.WellFormed) : Sound m := by
  refine h.sound ?_
  intro g b k hg hmap
  cases hfg : f g with
  | error e =>
    rw [hfg] at hmap
    cases hmap
  | ok r =>
    rw [hfg] at hmap
    cases hmap
    exact hf hg hfg

theorem Sound.of_run {m' : Edit α ε' γ} (h : Sound m) (r : β → γ) (f : ε → ε')
    (hrun : ∀ g, m'.run g =
      match m.run g with
      | .ok b k => .ok (r b) k
      | .error e k => .error (f e) k) : Sound m' where
  kept := by
    intro g b k hg hok
    rw [hrun] at hok
    cases hm : m.run g with
    | ok c j =>
      rw [hm] at hok
      cases hok
      exact h.kept hg hm
    | error e j =>
      rw [hm] at hok
      cases hok
  unchanged := by
    intro g e k herror
    rw [hrun] at herror
    cases hm : m.run g with
    | ok c j =>
      rw [hm] at herror
      cases herror
    | error d j =>
      rw [hm] at herror
      cases herror
      exact h.unchanged hm

theorem Sound.adaptExcept (h : Sound m) (f : ε → ε') : Sound (m.adaptExcept f) := by
  refine h.of_run id f fun g => ?_
  rw [EStateM.run_adaptExcept]
  cases m.run g <;> rfl

theorem Sound.discard (h : Sound m) : Sound (discard m) := by
  refine h.of_run (fun _ => ()) id fun g => ?_
  simp only [Functor.discard, Functor.mapConst, EStateM.map, EStateM.run, Function.comp_apply]
  cases m g <;> rfl

end Sound

theorem addNode_inPlace (n : Node α) :
    InPlace (addNode n) fun g => (g.addNode n).map fun h => ((), h) := by
  intro g
  unfold addNode Graph.addNode
  by_cases hfree : g.containsId n.id = true
  · simp [hfree, Except.map]
  · simp [hfree, Except.map]

theorem addNode_sound (n : Node α) : Sound (addNode n) :=
  (addNode_inPlace n).sound_of_map fun hg h => hg.addNode h

theorem requireNode_run (edge node : String) (g : Graph α) :
    (requireNode edge node).run g =
      if (g.node? node).isNone then .error (.missingEndpoint edge node) g else .ok () g := by
  unfold requireNode
  cases hn : g.node? node <;> simp [hn]

theorem addEdge_inPlace (e : Edge) :
    InPlace (α := α) (addEdge e) fun g => (g.addEdge e).map fun h => ((), h) := by
  intro g
  unfold addEdge Graph.addEdge Graph.missingEnd?
  by_cases hfree : g.containsId e.id = true
  · simp [hfree, Except.map]
  · cases hsource : g.node? e.source with
    | none =>
      simp [hfree, hsource, requireNode_run, Except.map]
    | some m =>
      cases htarget : g.node? e.target with
      | none =>
        simp [hfree, hsource, htarget, requireNode_run, Except.map]
      | some n =>
        simp [hfree, hsource, htarget, requireNode_run, Except.map]

theorem addEdge_sound (e : Edge) : Sound (α := α) (addEdge e) :=
  (addEdge_inPlace e).sound_of_map fun hg h => hg.addEdge h

theorem retainApart_run (node : String) (es : List Edge) (g : Graph α) :
    (retainApart (ε := ε) node es).run g = .ok (es.filter fun e => !e.touches node)
      { g with ids := ((es.filter (·.touches node)).map (·.id)).foldl List.erase g.ids } := by
  induction es generalizing g with
  | nil => rfl
  | cons e es ih =>
    unfold retainApart
    by_cases htouch : e.touches node = true
    · simp [htouch, ih]
    · simp [htouch, ih, -bind_pure_comp]

theorem removeNode_inPlace (id : String) :
    InPlace (α := α) (removeNode id) fun g => g.removeNode id := by
  intro g
  unfold removeNode Graph.removeNode
  cases hn : g.node? id with
  | none =>
    simp [hn]
    rfl
  | some n =>
    have hid := Graph.node?_id hn
    simp [hn, retainApart_run, hid, -bind_pure_comp]

theorem removeNode_sound (id : String) : Sound (α := α) (removeNode id) :=
  (removeNode_inPlace id).sound fun hg h => hg.removeNode h

theorem removeEdge_inPlace (id : String) :
    InPlace (α := α) (removeEdge id) fun g => g.removeEdge id := by
  intro g
  unfold removeEdge Graph.removeEdge
  cases he : g.edge? id with
  | none =>
    simp [he]
    rfl
  | some e =>
    have hid := Graph.edge?_id he
    simp [he, hid, -bind_pure_comp]

theorem removeEdge_sound (id : String) : Sound (α := α) (removeEdge id) :=
  (removeEdge_inPlace id).sound fun hg h => hg.removeEdge h

theorem setPosition_inPlace (id : String) (position : Point α) :
    InPlace (setPosition id position) fun g => (g.setPosition id position).map fun h => ((), h) := by
  intro g
  unfold setPosition Graph.setPosition
  cases hn : g.node? id with
  | none =>
    simp [hn, Except.map]
  | some n =>
    simp [hn, Except.map]

theorem setPosition_sound (id : String) (position : Point α) : Sound (setPosition id position) :=
  (setPosition_inPlace id position).sound_of_map fun hg h => hg.setPosition h

theorem setLabel_inPlace (id label : String) :
    InPlace (α := α) (setLabel id label) fun g => (g.setLabel id label).map fun h => ((), h) := by
  intro g
  unfold setLabel Graph.setLabel
  cases hnode : g.node? id with
  | some n =>
    simp [hnode, Except.map]
  | none =>
    cases hedge : g.edge? id with
    | some e =>
      simp [hnode, hedge, Except.map]
    | none =>
      simp [hnode, hedge, Except.map]

theorem setLabel_sound (id label : String) : Sound (α := α) (setLabel id label) :=
  (setLabel_inPlace id label).sound_of_map fun hg h => hg.setLabel h

theorem outcome_forM {m : β → Edit α ε Unit} {f : Graph α → β → Except ε (Graph α)}
    (h : ∀ b, InPlace (m b) fun g => (f g b).map fun k => ((), k)) (bs : List β) (g : Graph α) :
    outcome ((bs.forM m).run g) = (bs.foldlM f g).map fun k => ((), k) := by
  induction bs generalizing g with
  | nil => rfl
  | cons b bs ih =>
    have hcons : (b :: bs).forM m = (m b >>= fun _ => bs.forM m) := rfl
    rw [hcons, outcome_bind, (h b).outcome_run, List.foldlM_cons]
    cases f g b with
    | error e => rfl
    | ok k => exact ih k

variable [Scalar α]

theorem outcome_fill (d : GraphData α) :
    outcome ((fill d).run .empty) = (Graph.ofData d).map fun h => ((), h) := by
  unfold fill Graph.ofData
  rw [outcome_bind, outcome_forM addNode_inPlace]
  cases d.nodes.foldlM Graph.addNode Graph.empty with
  | error e => rfl
  | ok g =>
    have hedges := outcome_forM addEdge_inPlace d.edges g
    change outcome ((d.edges.forM addEdge >>= fun _ => _).run g) = _
    rw [outcome_bind, hedges]
    cases hfold : d.edges.foldlM Graph.addEdge g with
    | error e =>
      simp [hfold, bind, Except.bind, Except.map]
    | ok h =>
      simp [hfold, bind, Except.bind, Except.map]
      rfl

theorem load_inPlace (d : GraphData α) :
    InPlace (load d) fun _ => (Graph.ofData d).map fun h => ((), h) := by
  intro g
  have hfill := outcome_fill d
  unfold load
  cases hrun : (fill d).run .empty with
  | ok u h =>
    rw [hrun] at hfill
    rw [← hfill]
    rfl
  | error e h =>
    rw [hrun] at hfill
    rw [← hfill]
    rfl

theorem load_sound (d : GraphData α) : Sound (load d) :=
  (load_inPlace d).sound_of_map fun _ h => Graph.wellFormed_ofData h

end GraphScribe.Edit
