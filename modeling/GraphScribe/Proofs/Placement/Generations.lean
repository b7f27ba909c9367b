import GraphScribe.Proofs.Placement.SpanningForest

/-! # Generations

A box sits one level below the box it hangs from, and no box hangs from itself or from one that
comes after it. What holds between any two roots and goes down from boxes to what hangs from them
thus holds between any two boxes of a level. -/
namespace GraphScribe

namespace Forest

variable {next : Nat → List Nat} {f : Forest}

structure Levelled (f : Forest) : Prop where
  top : ∀ s ∈ f, s.parent = none → s.depth = 0
  below : ∀ s ∈ f, ∀ p, s.parent = some p → ∃ t ∈ f, t.node = p ∧ s.depth = t.depth + 1

theorem mem_grow {queue : List Seat} {unseen : List Nat} {s : Seat}
    (hs : s ∈ (grow next queue unseen).1) :
    s ∈ queue ∨
      ∃ t ∈ (grow next queue unseen).1, s.parent = some t.node ∧ s.depth = t.depth + 1 := by
  fun_induction grow next queue unseen with
  | case1 unseen => exact .inl hs
  | case2 seat queue unseen new more ih =>
    rcases List.mem_cons.mp hs with rfl | hs
    · exact .inl List.mem_cons_self
    rcases ih hs with hqueue | ⟨t, ht, hseat⟩
    · rcases List.mem_append.mp hqueue with hold | hnew
      · exact .inl (List.mem_cons_of_mem _ hold)
      · obtain ⟨hparent, hdepth, -⟩ := seat_of_mem_enrol hnew
        exact .inr ⟨seat, List.mem_cons_self, hparent, hdepth⟩
    · exact .inr ⟨t, List.mem_cons_of_mem _ ht, hseat⟩

theorem levelled_grow (r : Nat) (unseen : List Nat) :
    Levelled (grow next [⟨r, none, 0⟩] unseen).1 := by
  constructor
  · intro s hs hnone
    rcases mem_grow hs with hroot | ⟨t, -, hparent, -⟩
    · rw [List.mem_singleton.mp hroot]
    · rw [hparent] at hnone
      cases hnone
  · intro s hs p hp
    rcases mem_grow hs with hroot | ⟨t, ht, hparent, hdepth⟩
    · rw [List.mem_singleton.mp hroot] at hp
      cases hp
    · rw [hparent] at hp
      exact ⟨t, ht, Option.some.inj hp, hdepth⟩

theorem Levelled.append {g : Forest} (hf : Levelled f) (hg : Levelled g) : Levelled (f ++ g) := by
  constructor
  · intro s hs
    exact (List.mem_append.mp hs).elim (hf.top s) (hg.top s)
  · intro s hs p hp
    rcases List.mem_append.mp hs with hs | hs
    · obtain ⟨t, ht, hseat⟩ := hf.below s hs p hp
      exact ⟨t, List.mem_append_left _ ht, hseat⟩
    · obtain ⟨t, ht, hseat⟩ := hg.below s hs p hp
      exact ⟨t, List.mem_append_right _ ht, hseat⟩

theorem levelled_plant (starts unseen : List Nat) : Levelled (plant next starts unseen) := by
  induction starts generalizing unseen with
  | nil => exact ⟨by simp [plant], by simp [plant]⟩
  | cons s starts ih =>
    rw [plant]
    by_cases hs : unseen.contains s = true
    · rw [if_pos hs]
      exact (levelled_grow s _).append (ih _)
    · rw [if_neg hs]
      exact ih unseen

theorem depth_root (hf : Levelled f) (h : f.order.Nodup) {v : Nat} (hv : v ∈ f.roots) :
    f.depth v = 0 := by
  obtain ⟨s, hs, hnone, rfl⟩ := mem_roots.mp hv
  rw [depth_eq h hs]
  exact hf.top s hs hnone

theorem depth_child (hf : Levelled f) (h : f.order.Nodup) {u v : Nat} (hv : v ∈ f.children u) :
    u ∈ f.order ∧ f.depth v = f.depth u + 1 := by
  obtain ⟨s, hs, hparent, rfl⟩ := mem_children.mp hv
  obtain ⟨t, ht, rfl, hdepth⟩ := hf.below s hs u hparent
  rw [depth_eq h hs, depth_eq h ht]
  exact ⟨List.mem_map_of_mem ht, hdepth⟩

/-- From the roots down: what holds between roots, between boxes that hang from the same box, and
between boxes that hang from boxes it holds between, holds between all boxes of a level. -/
theorem Levelled.same_level (hf : Levelled f) (h : f.order.Nodup) {R : Nat → Nat → Prop}
    (hroots : ∀ v ∈ f.roots, ∀ w ∈ f.roots, v ≠ w → R v w)
    (hsiblings : ∀ u ∈ f.order, ∀ v ∈ f.children u, ∀ w ∈ f.children u, v ≠ w → R v w)
    (hdown : ∀ t u, R t u → ∀ v ∈ f.children t, ∀ w ∈ f.children u, R v w) {v w : Nat}
    (hv : v ∈ f.order) (hw : w ∈ f.order) (hdepth : f.depth v = f.depth w) (hne : v ≠ w) :
    R v w := by
  generalize hn : f.depth v = n at hdepth
  -- by induction on the level; the boxes both hang from are one level up
  induction n generalizing v w with
  | zero =>
    have hroot : ∀ x ∈ f.order, f.depth x = 0 → x ∈ f.roots := by
      intro x hx hzero
      rcases root_or_child h hx with ⟨hroot, -⟩ | ⟨-, u, hu, -⟩
      · exact hroot
      · have := (depth_child hf h hu).2
        omega
    exact hroots v (hroot v hv hn) w (hroot w hw hdepth.symm) hne
  | succ n ih =>
    have hparent : ∀ x ∈ f.order, f.depth x = n + 1 →
        ∃ u ∈ f.order, x ∈ f.children u ∧ f.depth u = n := by
      intro x hx hdepth
      rcases root_or_child h hx with ⟨hroot, -⟩ | ⟨-, u, hu, -⟩
      · have := depth_root hf h hroot
        omega
      · obtain ⟨hmem, hstep⟩ := depth_child hf h hu
        exact ⟨u, hmem, hu, by omega⟩
    obtain ⟨t, ht, hvt, htdepth⟩ := hparent v hv hn
    obtain ⟨u, hu, hwu, hudepth⟩ := hparent w hw hdepth.symm
    by_cases htu : t = u
    · subst htu
      exact hsiblings t ht v hvt w hwu hne
    · exact hdown t u (ih ht hu htu htdepth hudepth.symm) v hvt w hwu

theorem depth_le_maxDepth (v : Nat) : f.depth v ≤ f.maxDepth := by
  rw [depth]
  cases hfound : f.find? (·.node == v) with
  | none => exact Nat.zero_le _
  | some s =>
    apply (List.max?_eq_some_iff.mp List.max?_cons').2
    exact List.mem_cons_of_mem _ (List.mem_map_of_mem (List.mem_of_find?_eq_some hfound))

theorem mem_order_of_root {v : Nat} (hv : v ∈ f.roots) : v ∈ f.order := by
  obtain ⟨s, hs, -, rfl⟩ := mem_roots.mp hv
  exact List.mem_map_of_mem hs

theorem mem_order_of_child {u v : Nat} (hv : v ∈ f.children u) : v ∈ f.order := by
  obtain ⟨s, hs, -, rfl⟩ := mem_children.mp hv
  exact List.mem_map_of_mem hs

theorem nodup_roots_children (h : f.order.Nodup) :
    (f.roots ++ f.flatMap fun s => f.children s.node).Nodup := by
  apply List.Nodup.append (nodup_roots h)
  · rw [List.nodup_flatMap]
    refine ⟨fun s _ => nodup_children h s.node, ?_⟩
    apply (List.pairwise_map.mp h).imp
    intro s t hne v hs ht
    obtain ⟨a, ha, hparent, rfl⟩ := mem_children.mp hs
    obtain ⟨b, hb, hparent', hnode⟩ := mem_children.mp ht
    rw [seat_unique h hb ha hnode, hparent] at hparent'
    exact hne (Option.some.inj hparent')
  · intro v hroot hchild
    obtain ⟨s, -, hv⟩ := List.mem_flatMap.mp hchild
    rcases root_or_child h (mem_order_of_child hv) with ⟨-, hnot⟩ | ⟨hnot, -⟩
    · exact hnot s.node hv
    · exact hnot hroot

theorem ParentsFirst.root_or_later {G : SimpleGraph Nat} (hf : ParentsFirst G f) {before : Forest}
    {s : Seat} {after : Forest} (hsplit : f = before ++ s :: after) :
    s.node ∈ f.roots ∨ ∃ t ∈ before, s.node ∈ f.children t.node := by
  have hs : s ∈ f := hsplit ▸ List.mem_append_right _ List.mem_cons_self
  cases hparent : s.parent with
  | none => exact .inl (mem_roots.mpr ⟨s, hs, hparent, rfl⟩)
  | some p =>
    obtain ⟨t, ht, rfl⟩ := mem_order.mp (hf before s after hsplit p hparent).1
    exact .inr ⟨t, ht, mem_children.mpr ⟨s, hs, hparent, rfl⟩⟩

/-- No box hangs from itself or from one that comes after it. -/
def Hanging (f : Forest) : Prop :=
  ∀ before s after, f = before ++ s :: after → ∀ t ∈ s :: after, s.parent ≠ some t.node

theorem ParentsFirst.hanging {G : SimpleGraph Nat} (hf : ParentsFirst G f) (h : f.order.Nodup) :
    Hanging f := by
  rintro before s after rfl t ht hparent
  obtain ⟨hbefore, -⟩ := hf before s after rfl t.node hparent
  rw [order_append] at h
  exact List.disjoint_of_nodup_append h hbefore (List.mem_map_of_mem ht)

theorem Hanging.tail {s : Seat} (hf : Hanging (s :: f)) : Hanging f := by
  intro before t after hsplit
  exact hf (s :: before) t after (congrArg (s :: ·) hsplit)

theorem Hanging.children_cons {s : Seat} (hf : Hanging (s :: f)) {v : Nat}
    (hv : v ∈ order (s :: f)) : children (s :: f) v = children f v := by
  obtain ⟨t, ht, rfl⟩ := mem_order.mp hv
  have hfirst : s.parent ≠ some t.node := hf [] s f rfl t ht
  rw [children, List.filter_cons, if_neg (by simpa using hfirst)]
  rfl

end Forest

/-- Every box has one seat, after the box it hangs from and one level below it. -/
structure Forest.Grown (G : SimpleGraph Nat) (f : Forest) : Prop where
  nodup : f.order.Nodup
  parents : Forest.ParentsFirst G f
  levelled : Forest.Levelled f

theorem Diagram.Linked.grown {α : Type} {d : Diagram α} (h : d.Linked) :
    Forest.Grown d.joined d.forest where
  nodup := h.planted.perm.nodup_iff.mpr List.nodup_range
  parents := h.planted.parents
  levelled := Forest.levelled_plant _ _

end GraphScribe
