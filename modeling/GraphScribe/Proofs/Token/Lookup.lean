import GraphScribe.Token.Sequence
import Mathlib.Data.List.TakeWhile

/-! # Look-up by bisection

On an array whose elements satisfy a predicate up to some index and no further, bisection counts
them. Tokens in order are of that kind for the two predicates of a look-up by range, so the range
that bisection cuts out holds exactly the tokens that a scan of the whole sequence would find. A
look-up by offset needs the last of the tokens that have begun, and no other can contain it. -/
namespace GraphScribe

section Bisection

variable {α : Type} {xs : Array α} {p : α → Bool}

/-- Where an element satisfies `p`, all elements before it do. -/
def FrontLoaded (p : α → Bool) (xs : List α) : Prop :=
  xs.Pairwise fun a b => p b = true → p a = true

theorem FrontLoaded.earlier {xs : List α} (h : FrontLoaded p xs) {i j : Nat} {a b : α}
    (hi : xs[i]? = some a) (hj : xs[j]? = some b) (hij : i ≤ j) (hb : p b = true) : p a = true := by
  rcases Nat.lt_or_eq_of_le hij with hlt | rfl
  · obtain ⟨hi', rfl⟩ := List.getElem?_eq_some_iff.mp hi
    obtain ⟨hj', rfl⟩ := List.getElem?_eq_some_iff.mp hj
    exact List.pairwise_iff_getElem.mp h i j hi' hj' hlt hb
  · rw [hi] at hj
    cases hj
    exact hb

/-- The window always holds the border between the elements that satisfy `p` and the others. -/
theorem bisect_border (h : FrontLoaded p xs.toList) {low high : Nat} (hwin : low ≤ high)
    (hhigh : high ≤ xs.size) (hlo : ∀ i a, i < low → xs[i]? = some a → p a = true)
    (hhi : ∀ i a, high ≤ i → xs[i]? = some a → p a = false) :
    bisect xs p low high ≤ xs.size ∧
      (∀ i a, i < bisect xs p low high → xs[i]? = some a → p a = true) ∧
      (∀ i a, bisect xs p low high ≤ i → xs[i]? = some a → p a = false) := by
  fun_induction bisect xs p low high with
  | case1 low high hlt mid x hx hp ih =>
    refine ih (by omega) hhigh ?_ hhi
    intro i a hi ha
    rw [← Array.getElem?_toList] at ha hx
    exact h.earlier ha hx (by omega) hp
  | case2 low high hlt mid x hx hp ih =>
    refine ih (by omega) (by omega) hlo ?_
    intro i a hi ha
    by_contra hpa
    rw [← Array.getElem?_toList] at ha hx
    exact hp (h.earlier hx ha hi (by simpa using hpa))
  | case3 low high hlt mid hx ih =>
    have hsize : mid < xs.size := by omega
    rw [Array.getElem?_eq_getElem hsize] at hx
    cases hx
  | case4 low high hlt =>
    have : low = high := by omega
    subst this
    exact ⟨hhigh, hlo, hhi⟩

theorem frontCount_splits (h : FrontLoaded p xs.toList) :
    frontCount xs p ≤ xs.size ∧
      (∀ i a, i < frontCount xs p → xs[i]? = some a → p a = true) ∧
      (∀ i a, frontCount xs p ≤ i → xs[i]? = some a → p a = false) := by
  apply bisect_border h (Nat.zero_le _) (Nat.le_refl xs.size)
  · intro i a hi
    exact absurd hi (Nat.not_lt_zero i)
  · intro i a hi ha
    rw [Array.getElem?_eq_none hi] at ha
    cases ha

theorem lt_frontCount_iff (h : FrontLoaded p xs.toList) {i : Nat} {a : α} (ha : xs[i]? = some a) :
    i < frontCount xs p ↔ p a = true := by
  obtain ⟨_, hlo, hhi⟩ := frontCount_splits h
  constructor
  · intro hi
    exact hlo i a hi ha
  · intro hp
    by_contra hi
    rw [hhi i a (not_lt.mp hi) ha] at hp
    cases hp

theorem frontCount_border (h : FrontLoaded p xs.toList) :
    (∀ a ∈ xs.toList.take (frontCount xs p), p a = true) ∧
      ∀ a ∈ xs.toList.drop (frontCount xs p), p a = false := by
  obtain ⟨_, hlo, hhi⟩ := frontCount_splits h
  constructor
  · intro a ha
    obtain ⟨i, hi⟩ := List.mem_iff_getElem?.mp ha
    rw [List.getElem?_take] at hi
    split at hi
    · exact hlo i a ‹_› (by rwa [← Array.getElem?_toList])
    · cases hi
  · intro a ha
    obtain ⟨i, hi⟩ := List.mem_iff_getElem?.mp ha
    rw [List.getElem?_drop] at hi
    exact hhi _ a (Nat.le_add_right _ i) (by rwa [← Array.getElem?_toList])

theorem take_frontCount (h : FrontLoaded p xs.toList) :
    xs.toList.take (frontCount xs p) = xs.toList.filter p := by
  obtain ⟨hlo, hhi⟩ := frontCount_border h
  have hsplit := congrArg (List.filter p) (List.take_append_drop (frontCount xs p) xs.toList)
  rw [List.filter_append, List.filter_eq_self.mpr hlo,
    List.filter_eq_nil_iff.mpr (fun a ha => by simp [hhi a ha]), List.append_nil] at hsplit
  exact hsplit

end Bisection

variable {κ : Type} {ts : Tokens κ}

structure Tokens.Ordered (ts : Tokens κ) : Prop where
  nonempty : ∀ t ∈ ts.toList, t.start < t.stop
  ordered : ts.toList.Pairwise fun a b => a.stop ≤ b.start

theorem Tokens.Ordered.stops_frontLoaded (h : ts.Ordered) (offset : Nat) :
    FrontLoaded (fun t : Token κ => decide (t.stop ≤ offset)) ts.toList := by
  refine List.Pairwise.imp_of_mem ?_ h.ordered
  intro a b _ hb hab hle
  have := h.nonempty b hb
  simp only [decide_eq_true_eq] at hle ⊢
  omega

theorem Tokens.Ordered.starts_frontLoaded (h : ts.Ordered) (offset : Nat) :
    FrontLoaded (fun t : Token κ => decide (t.start < offset)) ts.toList := by
  refine List.Pairwise.imp_of_mem ?_ h.ordered
  intro a b ha _ hab hlt
  have := h.nonempty a ha
  simp only [decide_eq_true_eq] at hlt ⊢
  omega

theorem Tokens.Ordered.overlapping_eq_filter (h : ts.Ordered) (start stop : Nat) :
    (ts.overlapping start stop).toList = ts.toList.filter fun t => t.intersects start stop := by
  have htake := take_frontCount (h.starts_frontLoaded stop)
  obtain ⟨hlo, hhi⟩ := frontCount_border (h.stops_frontLoaded start)
  unfold Tokens.overlapping
  dsimp only
  generalize (frontCount ts fun t => t.stop ≤ start) = first at hlo hhi ⊢
  generalize (frontCount ts fun t => t.start < stop) = last at htake ⊢
  have hsplit : ts.toList.filter (fun t => t.intersects start stop) =
      (ts.toList.take last).filter fun t => start < t.stop := by
    rw [htake, List.filter_filter]
    exact List.filter_congr fun t _ => Bool.and_comm _ _
  have hfilter : (ts.toList.take last).filter (fun t => decide (start < t.stop)) =
      (ts.toList.take last).drop first := by
    have happ := congrArg (List.filter fun t : Token κ => decide (start < t.stop))
      (List.take_append_drop first (ts.toList.take last))
    rw [← happ, List.filter_append, List.filter_eq_nil_iff.mpr, List.nil_append,
      List.filter_eq_self.mpr]
    · intro t ht
      rw [List.drop_take] at ht
      have := hhi t (List.mem_of_mem_take ht)
      simp only [decide_eq_false_iff_not, decide_eq_true_eq] at this ⊢
      omega
    · intro t ht
      rw [List.take_take] at ht
      have := hlo t ((List.take_prefix_take_left (Nat.min_le_left _ _)).subset ht)
      simp only [decide_eq_true_eq] at this ⊢
      omega
  rw [hsplit, hfilter]
  split
  · rename_i hge
    rw [List.drop_eq_nil_iff.mpr]
    rw [List.length_take]
    omega
  · rw [Array.toList_extract, List.extract_eq_take_drop, List.drop_take]

/-- What the look-up by range finds stands side by side in the sequence. -/
theorem Tokens.overlapping_infix (ts : Tokens κ) (start stop : Nat) :
    (ts.overlapping start stop).toList <:+: ts.toList := by
  unfold Tokens.overlapping
  dsimp only
  split
  · exact List.nil_infix
  · rw [Array.toList_extract, List.extract_eq_take_drop]
    exact (List.take_prefix _ _).isInfix.trans (List.drop_suffix _ _).isInfix

theorem Tokens.Ordered.begun_frontLoaded (h : ts.Ordered) (offset : Nat) :
    FrontLoaded (fun t : Token κ => decide (t.start ≤ offset)) ts.toList := by
  have hstarts := h.starts_frontLoaded (offset + 1)
  simpa only [Nat.lt_succ_iff] using hstarts

theorem Tokens.Ordered.stop_le_start (h : ts.Ordered) {i j : Nat} {t u : Token κ}
    (ht : ts[i]? = some t) (hu : ts[j]? = some u) (hij : i < j) : t.stop ≤ u.start := by
  obtain ⟨hi, rfl⟩ := Array.getElem?_eq_some_iff.mp ht
  obtain ⟨hj, rfl⟩ := Array.getElem?_eq_some_iff.mp hu
  exact List.pairwise_iff_getElem.mp h.ordered i j hi hj hij

/-- The look-up by offset finds a token that contains the offset, and finds any such token. -/
theorem Tokens.Ordered.at?_eq_some_iff (h : ts.Ordered) {offset : Nat} {t : Token κ} :
    ts.at? offset = some t ↔ t ∈ ts.toList ∧ t.contains offset = true := by
  have hsize := (frontCount_splits (h.begun_frontLoaded offset)).1
  have hborder {i : Nat} {u : Token κ} (hu : ts[i]? = some u) :=
    lt_frontCount_iff (h.begun_frontLoaded offset) hu
  unfold Tokens.at?
  generalize (frontCount ts fun t => t.start ≤ offset) = count at hsize hborder ⊢
  constructor
  · intro hfound
    split at hfound
    · cases hfound
    · obtain ⟨ht, hcontains⟩ := Option.filter_eq_some_iff.mp hfound
      exact ⟨Array.mem_toList_iff.mpr (Array.mem_of_getElem? ht), hcontains⟩
  · rintro ⟨ht, hcontains⟩
    obtain ⟨i, hi⟩ := List.mem_iff_getElem?.mp ht
    rw [Array.getElem?_toList] at hi
    have hspan : t.start ≤ offset ∧ offset < t.stop := by
      simpa [Token.contains] using hcontains
    have hlt : i < count := (hborder hi).mpr (by simpa using hspan.1)
    obtain ⟨n, rfl⟩ : ∃ n, count = n + 1 := ⟨count - 1, by omega⟩
    -- a token after `t` begins at its end or later, so beyond the offset
    have hlast : i = n := by
      by_contra hne
      have hn : ts[n]? = some ts[n] := Array.getElem?_eq_getElem hsize
      have hbegun : ts[n].start ≤ offset := by
        simpa using (hborder hn).mp (Nat.lt_succ_self n)
      have hle := h.stop_le_start hi hn (by omega)
      omega
    subst hlast
    exact Option.filter_eq_some_iff.mpr ⟨hi, hcontains⟩

theorem Tokens.Ordered.contains_alone (h : ts.Ordered) (offset : Nat) :
    (ts.toList.filter fun t => t.contains offset) = (ts.at? offset).toList := by
  have horder := h.ordered.filter fun t => t.contains offset
  have hmem {t : Token κ} : t ∈ (ts.toList.filter fun t => t.contains offset) ↔
      ts.at? offset = some t := by
    rw [List.mem_filter, h.at?_eq_some_iff]
  generalize (ts.toList.filter fun t => t.contains offset) = found at horder hmem ⊢
  match found with
  | [] =>
    cases hat : ts.at? offset with
    | none => rfl
    | some t => cases hmem.mpr hat
  | [t] =>
    rw [hmem.mp List.mem_cons_self]
    rfl
  | t :: u :: _ =>
    have ht := hmem.mp List.mem_cons_self
    have hu := hmem.mp (List.mem_cons_of_mem t List.mem_cons_self)
    obtain rfl := Option.some.inj (ht.symm.trans hu)
    have hle := (List.pairwise_cons.mp horder).1 t List.mem_cons_self
    have hlt := h.nonempty t (h.at?_eq_some_iff.mp ht).1
    omega

end GraphScribe
