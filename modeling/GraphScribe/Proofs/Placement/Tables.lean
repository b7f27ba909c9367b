import GraphScribe.Placement.Table
import Mathlib.Data.List.Nodup
import Mathlib.Data.List.Pairwise

/-! # Looking up in tables

The first pair of a key counts. In a table whose keys are all different every pair counts, and what is
added at the end does not change what is found. -/
namespace GraphScribe

def Table.keys {β : Type} (t : Table β) : List Nat := t.map (·.1)

theorem Table.get_of_mem_keys {β : Type} {t : Table β} {v : Nat} (h : v ∈ t.keys) (b c : β) :
    t.get v b = t.get v c := by
  unfold Table.get
  cases hlookup : t.lookup v with
  | some d => rfl
  | none =>
    obtain ⟨entry, hentry, rfl⟩ := List.mem_map.mp h
    have habsent := List.lookup_eq_none_iff.mp hlookup entry hentry
    simp at habsent

namespace Table

variable {β : Type} {t : Table β} {v w : Nat}

theorem get_cons_self (v : Nat) (b : β) (t : Table β) (c : β) : get ((v, b) :: t) v c = b := by
  simp [get]

theorem get_cons_of_ne (h : v ≠ w) (b : β) (t : Table β) (c : β) :
    get ((w, b) :: t) v c = t.get v c := by
  rw [get, get, List.lookup_cons, beq_false_of_ne h]

theorem mem_of_mem_keys (h : v ∈ t.keys) (c : β) : (v, t.get v c) ∈ t := by
  induction t with
  | nil => cases h
  | cons entry t ih =>
    obtain ⟨w, b⟩ := entry
    by_cases hvw : v = w
    · subst hvw
      rw [get_cons_self]
      exact List.mem_cons_self
    · rw [get_cons_of_ne hvw]
      exact List.mem_cons_of_mem _ (ih ((List.mem_cons.mp h).resolve_left hvw))

theorem mem_keys_append {t' : Table β} : v ∈ keys (t ++ t') ↔ v ∈ t.keys ∨ v ∈ t'.keys := by
  rw [keys, List.map_append, List.mem_append]
  rfl

theorem mem_keys_of_mem {b : β} (h : (v, b) ∈ t) : v ∈ t.keys := List.mem_map_of_mem h

theorem get_append_of_mem_keys (h : v ∈ t.keys) (t' : Table β) (c : β) :
    get (t ++ t') v c = t.get v c := by
  induction t with
  | nil => cases h
  | cons entry t ih =>
    obtain ⟨w, b⟩ := entry
    by_cases hvw : v = w
    · subst hvw
      rw [List.cons_append, get_cons_self, get_cons_self]
    · rw [List.cons_append, get_cons_of_ne hvw, get_cons_of_ne hvw]
      exact ih ((List.mem_cons.mp h).resolve_left hvw)

theorem mem_iff_get (ht : t.keys.Nodup) (hv : v ∈ t.keys) {b : β} (c : β) :
    (v, b) ∈ t ↔ b = t.get v c := by
  have hfound := mem_of_mem_keys hv c
  constructor
  · intro h
    exact (Prod.mk.inj (List.inj_on_of_nodup_map ht h hfound rfl)).2
  · rintro rfl
    exact hfound

theorem mem_of_subset {t' : Table β} (ht : t.keys.Nodup) (hsub : t' ⊆ t) (hv : v ∈ t'.keys)
    (c : β) : (v, t.get v c) ∈ t' := by
  have hfound := mem_of_mem_keys hv c
  have hmem := hsub hfound
  rwa [← (mem_iff_get ht (mem_keys_of_mem hmem) c).mp hmem]

/-- In a table whose pairs follow each other in some way, of any two keys one follows the other. -/
theorem pairwise_or {R : Nat × β → Nat × β → Prop} (h : List.Pairwise R t) {e e' : Nat × β}
    (he : e ∈ t) (he' : e' ∈ t) (hne : e.1 ≠ e'.1) : R e e' ∨ R e' e := by
  let Either (e e' : Nat × β) : Prop := R e e' ∨ R e' e
  have : Std.Symm Either := ⟨fun _ _ => Or.symm⟩
  have heither : List.Pairwise Either t := h.imp Or.inl
  exact heither.forall he he' fun heq => hne (congrArg Prod.fst heq)

theorem get_map {γ : Type} (f : β → γ) (t : Table β) (v : Nat) (b : β) :
    Table.get (t.map fun entry => (entry.1, f entry.2)) v (f b) = f (t.get v b) := by
  induction t with
  | nil => rfl
  | cons entry t ih =>
    obtain ⟨w, c⟩ := entry
    by_cases hvw : v = w
    · subst hvw
      rw [List.map_cons, get_cons_self, get_cons_self]
    · rw [List.map_cons, get_cons_of_ne hvw, get_cons_of_ne hvw, ih]

end Table

end GraphScribe
