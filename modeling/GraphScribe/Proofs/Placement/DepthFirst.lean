import GraphScribe.Placement.Frame
import GraphScribe.Proofs.Diagram.Links

/-! # Depth-first search

Every box that has been met has a way back to the start, and the path of the search is the way back
from its end. A link between two boxes that has been looked at joins a box with one on its way back,
and the shortest cycle so far is no longer than the cycle that the link closes. -/
namespace GraphScribe.Component

def Lists (adjacent : Nat → List Nat) (G : SimpleGraph Nat) (vs : List Nat) : Prop :=
  ∀ v ∈ vs, ∀ w, w ∈ adjacent v ↔ G.Adj v w

/-- `up v` leads from the box `v`, if it has been met, back to the start `r`. -/
structure Ways (G : SimpleGraph Nat) (r : Nat) (met : List Nat) (up : Nat → List Nat) : Prop where
  start : r ∈ met
  back : ∀ v ∈ met, v = r ∧ up v = [r] ∨ ∃ p ∈ met, G.Adj v p ∧ up v = v :: up p

namespace Ways

variable {G : SimpleGraph Nat} {r : Nat} {met : List Nat} {up : Nat → List Nat}

theorem induct (h : Ways G r met up) {motive : ∀ v, v ∈ met → Prop}
    (start : up r = [r] → motive r h.start)
    (step : ∀ v hv p hp, G.Adj v p → up v = v :: up p → motive p hp → motive v hv) (v : Nat)
    (hv : v ∈ met) : motive v hv := by
  induction hn : (up v).length using Nat.strong_induction_on generalizing v with
  | _ n ih =>
    rcases h.back v hv with ⟨rfl, hup⟩ | ⟨p, hp, hadj, hup⟩
    · exact start hup
    · rw [hup, List.length_cons] at hn
      exact step v hv p hp hadj hup (ih _ (by omega) p hp rfl)

theorem head (h : Ways G r met up) {v : Nat} (hv : v ∈ met) : ∃ ws, up v = v :: ws := by
  rcases h.back v hv with ⟨rfl, hup⟩ | ⟨p, -, -, hup⟩
  · exact ⟨[], hup⟩
  · exact ⟨up p, hup⟩

theorem mem_self (h : Ways G r met up) {v : Nat} (hv : v ∈ met) : v ∈ up v := by
  obtain ⟨ws, hup⟩ := h.head hv
  rw [hup]
  exact List.mem_cons_self

theorem mem_met (h : Ways G r met up) {v x : Nat} (hv : v ∈ met) (hx : x ∈ up v) : x ∈ met := by
  induction v, hv using h.induct with
  | start hup =>
    rw [hup, List.mem_singleton] at hx
    exact hx ▸ h.start
  | step v hv p hp hadj hup ih =>
    rw [hup, List.mem_cons] at hx
    rcases hx with rfl | hx
    · exact hv
    · exact ih hx

theorem up_getElem (h : Ways G r met up) {v i x : Nat} (hv : v ∈ met) (hx : (up v)[i]? = some x) :
    up x = (up v).drop i := by
  induction v, hv using h.induct generalizing i with
  | start hup =>
    rw [hup] at hx ⊢
    cases i with
    | zero =>
      obtain rfl : r = x := by simpa using hx
      exact hup
    | succ i => simp at hx
  | step v hv p hp hadj hup ih =>
    rw [hup] at hx ⊢
    cases i with
    | zero =>
      obtain rfl : v = x := by simpa using hx
      exact hup
    | succ i => exact ih (by simpa using hx)

theorem nodup (h : Ways G r met up) {v : Nat} (hv : v ∈ met) : (up v).Nodup := by
  induction v, hv using h.induct with
  | start hup =>
    rw [hup]
    exact List.nodup_singleton r
  | step v hv p hp hadj hup ih =>
    rw [hup]
    refine List.nodup_cons.mpr ⟨?_, ih⟩
    -- a box on the way back from the next one would have a way back shorter than its own
    intro hagain
    obtain ⟨i, hi⟩ := List.mem_iff_getElem?.mp hagain
    have hdrop := congrArg List.length (h.up_getElem hp hi)
    rw [hup, List.length_cons, List.length_drop] at hdrop
    omega

theorem length_lt (h : Ways G r met up) {v x : Nat} (hv : v ∈ met) (hx : x ∈ up v) (hne : v ≠ x) :
    (up x).length < (up v).length := by
  obtain ⟨k, hk⟩ := List.mem_iff_getElem?.mp hx
  have hdrop := congrArg List.length (h.up_getElem hv hk)
  obtain ⟨ws, hhead⟩ := h.head hv
  cases k with
  | zero =>
    rw [hhead] at hk
    exact absurd (Option.some.inj hk) hne
  | succ k =>
    rw [List.length_drop, hhead, List.length_cons] at hdrop
    rw [hhead, List.length_cons]
    omega

theorem chain (h : Ways G r met up) {v : Nat} (hv : v ∈ met) : (up v).IsChain G.Adj := by
  induction v, hv using h.induct with
  | start hup =>
    rw [hup]
    exact .singleton r
  | step v hv p hp hadj hup ih =>
    obtain ⟨ws, hhead⟩ := h.head hp
    rw [hhead] at hup ih
    rw [hup]
    exact List.isChain_cons_cons.mpr ⟨hadj, ih⟩

theorem reachable (h : Ways G r met up) {v : Nat} (hv : v ∈ met) : G.Reachable r v := by
  induction v, hv using h.induct with
  | start => exact .refl r
  | step v hv p hp hadj hup ih => exact ih.trans hadj.symm.reachable

theorem meet (h : Ways G r met up) {v w : Nat} (hv : v ∈ met) (hw : w ∉ met) (hadj : G.Adj v w) :
    Ways G r (w :: met) (Function.update up w (w :: up v)) := by
  have hkeep : ∀ x ∈ met, Function.update up w (w :: up v) x = up x := by
    intro x hx
    exact Function.update_of_ne (ne_of_mem_of_not_mem hx hw) _ _
  constructor
  · exact List.mem_cons_of_mem _ h.start
  · intro x hx
    rcases List.mem_cons.mp hx with rfl | hx
    · right
      refine ⟨v, List.mem_cons_of_mem _ hv, hadj.symm, ?_⟩
      rw [Function.update_self, hkeep v hv]
    · rw [hkeep x hx]
      rcases h.back x hx with hroot | ⟨p, hp, hxp, hup⟩
      · exact .inl hroot
      · exact .inr ⟨p, List.mem_cons_of_mem _ hp, hxp, by rw [hkeep p hp, hup]⟩

end Ways

theorem backTo_eq_take {l : List Nat} (hl : l.Nodup) {k w : Nat} (hk : l[k]? = some w) :
    backTo w l = l.take (k + 1) := by
  induction l generalizing k with
  | nil => simp at hk
  | cons x l ih =>
    obtain ⟨hx, hl⟩ := List.nodup_cons.mp hl
    unfold backTo
    cases k with
    | zero =>
      obtain rfl : x = w := by simpa using hk
      rw [if_pos rfl]
      rfl
    | succ k =>
      have hw : l[k]? = some w := by simpa using hk
      have hne : x ≠ w := by
        rintro rfl
        exact hx (List.mem_of_getElem? hw)
      rw [if_neg hne, ih hl hw, List.take_succ_cons]

theorem closed?_cons_cons (x p : Nat) (rest : List Nat) (w : Nat) : closed? (x :: p :: rest) w =
    if w ≠ p ∧ w ∈ rest then some (backTo w (x :: p :: rest)) else none := rfl

/-- A link closes a cycle with the path if it leads to a box two or more steps back. -/
theorem closed?_eq_some {l : List Nat} (hl : l.Nodup) {w : Nat} {c : List Nat} :
    closed? l w = some c ↔ ∃ k, 2 ≤ k ∧ l[k]? = some w ∧ c = l.take (k + 1) := by
  constructor
  · intro h
    match l with
    | [] => cases h
    | [_] => cases h
    | x :: p :: rest =>
      rw [closed?_cons_cons] at h
      split at h
      · rename_i hw
        obtain ⟨k, hk⟩ := List.mem_iff_getElem?.mp hw.2
        have hk' : (x :: p :: rest)[k + 2]? = some w := by simpa using hk
        refine ⟨k + 2, by omega, hk', ?_⟩
        rw [← backTo_eq_take hl hk']
        exact (Option.some.inj h).symm
      · cases h
  · rintro ⟨k, htwo, hk, rfl⟩
    match l, k, htwo with
    | [], k, _ => simp at hk
    | [_], k + 2, _ => simp at hk
    | x :: p :: rest, k + 2, _ =>
      have hw : w ∈ rest := List.mem_of_getElem? (by simpa using hk)
      have hp : p ∉ rest := (List.nodup_cons.mp (List.nodup_cons.mp hl).2).1
      rw [closed?_cons_cons, if_pos ⟨ne_of_mem_of_not_mem hw hp, hw⟩, backTo_eq_take hl hk]

/-- `best` is the shorter one of the cycle `old` and the cycle `closed`, as far as there are any. -/
structure Revised (old closed best : Option (List Nat)) : Prop where
  origin : best = old ∨ best = closed
  le_old : ∀ c, old = some c → ∃ b, best = some b ∧ b.length ≤ c.length
  le_closed : ∀ c, closed = some c → ∃ b, best = some b ∧ b.length ≤ c.length

theorem revised (old closed : Option (List Nat)) : Revised old closed
    (match closed with
      | some c => shorter old c
      | none => old) := by
  cases closed with
  | none =>
    constructor
    · exact .inl rfl
    · intro c hc
      exact ⟨c, hc, le_rfl⟩
    · intro c hc
      cases hc
  | some new =>
    cases old with
    | none =>
      constructor
      · exact .inr rfl
      · intro c hc
        cases hc
      · intro c hc
        exact ⟨c, hc, le_rfl⟩
    | some old =>
      by_cases hlt : new.length < old.length
      · have hbest : shorter (some old) new = some new := if_pos hlt
        constructor
        · exact .inr hbest
        · rintro c ⟨⟩
          exact ⟨new, hbest, hlt.le⟩
        · rintro c ⟨⟩
          exact ⟨new, hbest, le_rfl⟩
      · have hbest : shorter (some old) new = some old := if_neg hlt
        constructor
        · exact .inl hbest
        · rintro c ⟨⟩
          exact ⟨old, hbest, le_rfl⟩
        · rintro c ⟨⟩
          exact ⟨old, hbest, not_lt.mp hlt⟩

/-- The link from `v` to `w` has been looked at: one of the two is on the way back from the other,
and if the link closes a cycle, the shortest cycle so far is no longer. -/
structure Settled (up : Nat → List Nat) (s : Search) (v w : Nat) : Prop where
  met : w ∈ s.met
  related : w ∈ up v ∨ v ∈ up w
  bound : ∀ c, closed? (up v) w = some c → ∃ b, s.cycle = some b ∧ b.length ≤ c.length

theorem Settled.mono {up up' : Nat → List Nat} {s s' : Search} {v w : Nat} (h : Settled up s v w)
    (hmet : ∀ x ∈ s.met, x ∈ s'.met) (hv : up' v = up v) (hw : up' w = up w)
    (hcycle : ∀ c, s.cycle = some c → ∃ b, s'.cycle = some b ∧ b.length ≤ c.length) :
    Settled up' s' v w := by
  constructor
  · exact hmet w h.met
  · rw [hv, hw]
    exact h.related
  · intro c hc
    rw [hv] at hc
    obtain ⟨b, hb, hle⟩ := h.bound c hc
    obtain ⟨b', hb', hle'⟩ := hcycle b hb
    exact ⟨b', hb', hle'.trans hle⟩

/-- What holds while a search from `r` goes on in the boxes `vs`. -/
structure Exploring (G : SimpleGraph Nat) (r : Nat) (vs : List Nat) (up : Nat → List Nat)
    (path : Path) (s : Search) : Prop where
  perm : (s.met ++ s.unseen).Perm vs
  ways : Ways G r s.met up
  top : ∀ v ws rest, path = (v, ws) :: rest → v ∈ s.met ∧ path.boxes = up v
  pending : ∀ e ∈ path, ∀ w ∈ e.2, G.Adj e.1 w
  settled : ∀ v ∈ s.met, ∀ w, G.Adj v w → (∃ ws, (v, ws) ∈ path ∧ w ∈ ws) ∨ Settled up s v w
  cycle : ∀ c, s.cycle = some c → ∃ v ∈ s.met, ∃ w, G.Adj v w ∧ closed? (up v) w = some c

namespace Exploring

variable {G : SimpleGraph Nat} {r v w : Nat} {vs ws : List Nat} {up : Nat → List Nat} {path : Path}
  {s : Search} {adjacent : Nat → List Nat}

theorem back (h : Exploring G r vs up ((v, []) :: path) s) : Exploring G r vs up path s := by
  constructor
  · exact h.perm
  · exact h.ways
  · rintro p ws rest rfl
    obtain ⟨hv, hboxes⟩ := h.top v [] _ rfl
    rcases h.ways.back v hv with ⟨-, hup⟩ | ⟨q, hq, -, hup⟩
    · rw [hup] at hboxes
      simp [Path.boxes] at hboxes
    · rw [hup] at hboxes
      have hrest : Path.boxes ((p, ws) :: rest) = up q := (List.cons.inj hboxes).2
      obtain ⟨t, ht⟩ := h.ways.head hq
      obtain rfl : p = q := by
        rw [ht] at hrest
        exact (List.cons.inj hrest).1
      exact ⟨hq, hrest⟩
  · intro e he
    exact h.pending e (List.mem_cons_of_mem _ he)
  · intro x hx y hadj
    rcases h.settled x hx y hadj with ⟨us, hmem, hy⟩ | hsettled
    · rcases List.mem_cons.mp hmem with heq | hmem
      · cases heq
        cases hy
      · exact .inl ⟨us, hmem, hy⟩
    · exact .inr hsettled
  · exact h.cycle

theorem pending_rest (h : Exploring G r vs up ((v, w :: ws) :: path) s) :
    ∀ e ∈ (v, ws) :: path, ∀ y ∈ e.2, G.Adj e.1 y := by
  intro e he y hy
  rcases List.mem_cons.mp he with rfl | he
  · exact h.pending _ List.mem_cons_self y (List.mem_cons_of_mem _ hy)
  · exact h.pending e (List.mem_cons_of_mem _ he) y hy

theorem settled_cases (h : Exploring G r vs up ((v, w :: ws) :: path) s) {x y : Nat}
    (hx : x ∈ s.met) (hxy : G.Adj x y) :
    (x = v ∧ y = w) ∨ (∃ us, (x, us) ∈ (v, ws) :: path ∧ y ∈ us) ∨ Settled up s x y := by
  rcases h.settled x hx y hxy with ⟨us, hus, hy⟩ | hsettled
  · rcases List.mem_cons.mp hus with heq | hus
    · obtain ⟨rfl, rfl⟩ := Prod.mk.inj heq
      rcases List.mem_cons.mp hy with rfl | hy
      · exact .inl ⟨rfl, rfl⟩
      · exact .inr (.inl ⟨ws, List.mem_cons_self, hy⟩)
    · exact .inr (.inl ⟨us, List.mem_cons_of_mem _ hus, hy⟩)
  · exact .inr (.inr hsettled)

/-- The search goes on to a neighbour that it has not met. -/
theorem meet (hvs : vs.Nodup) (hG : Lists adjacent G vs)
    (h : Exploring G r vs up ((v, w :: ws) :: path) s) (hw : w ∈ s.unseen) :
    Exploring G r vs (Function.update up w (w :: up v)) ((w, adjacent w) :: (v, ws) :: path)
      ⟨s.unseen.erase w, w :: s.met, s.cycle⟩ := by
  obtain ⟨hv, hboxes⟩ := h.top v (w :: ws) path rfl
  have hadj : G.Adj v w := h.pending _ List.mem_cons_self w List.mem_cons_self
  have hfresh : w ∉ s.met := fun hmet =>
    List.disjoint_of_nodup_append (h.perm.nodup_iff.mpr hvs) hmet hw
  have hkeep : ∀ x ∈ s.met, Function.update up w (w :: up v) x = up x := by
    intro x hx
    exact Function.update_of_ne (ne_of_mem_of_not_mem hx hfresh) _ _
  have hmem : w ∈ vs := h.perm.mem_iff.mp (List.mem_append_right _ hw)
  constructor
  · have hmiddle : (w :: s.met ++ s.unseen.erase w).Perm (s.met ++ w :: s.unseen.erase w) :=
      List.perm_middle.symm
    exact hmiddle.trans (((List.perm_cons_erase hw).symm.append_left _).trans h.perm)
  · exact h.ways.meet hv hfresh hadj
  · rintro x us rest ⟨⟩
    refine ⟨List.mem_cons_self, ?_⟩
    rw [Function.update_self, ← hboxes]
    rfl
  · intro e he y hy
    rcases List.mem_cons.mp he with rfl | he
    · exact (hG w hmem y).mp hy
    · exact h.pending_rest e he y hy
  · intro x hx y hxy
    rcases List.mem_cons.mp hx with rfl | hx
    · exact .inl ⟨adjacent x, List.mem_cons_self, (hG x hmem y).mpr hxy⟩
    · rcases h.settled_cases hx hxy with ⟨rfl, rfl⟩ | ⟨us, hus, hy⟩ | hsettled
      · right
        constructor
        · exact List.mem_cons_self
        · right
          rw [Function.update_self]
          exact List.mem_cons_of_mem _ (h.ways.mem_self hv)
        · -- the new box is on no way back but its own, so the link to it closes nothing
          intro c hc
          rw [hkeep x hv, closed?_eq_some (h.ways.nodup hv)] at hc
          obtain ⟨k, -, hk, -⟩ := hc
          exact absurd (h.ways.mem_met hv (List.mem_of_getElem? hk)) hfresh
      · exact .inl ⟨us, List.mem_cons_of_mem _ hus, hy⟩
      · right
        refine hsettled.mono ?_ (hkeep x hx) (hkeep y hsettled.met) fun c hc => ⟨c, hc, le_rfl⟩
        intro z hz
        exact List.mem_cons_of_mem _ hz
  · intro c hc
    obtain ⟨x, hx, y, hxy, hclosed⟩ := h.cycle c hc
    exact ⟨x, List.mem_cons_of_mem _ hx, y, hxy, by rwa [hkeep x hx]⟩

theorem pass (hclosed : Closed G vs) (h : Exploring G r vs up ((v, w :: ws) :: path) s)
    (hw : w ∉ s.unseen) {best : Option (List Nat)}
    (hbest : Revised s.cycle (closed? (up v) w) best) :
    Exploring G r vs up ((v, ws) :: path) ⟨s.unseen, s.met, best⟩ := by
  obtain ⟨hv, hboxes⟩ := h.top v (w :: ws) path rfl
  have hadj : G.Adj v w := h.pending _ List.mem_cons_self w List.mem_cons_self
  have hmet : w ∈ s.met := by
    have hvs : v ∈ vs := h.perm.mem_iff.mp (List.mem_append_left _ hv)
    rcases List.mem_append.mp (h.perm.mem_iff.mpr (hclosed v hvs w hadj)) with hmet | hunseen
    · exact hmet
    · exact absurd hunseen hw
  have hrelated : w ∈ up v ∨ v ∈ up w := by
    rcases h.settled w hmet v hadj.symm with ⟨us, hus, -⟩ | hsettled
    · -- a box with links still to be looked at is on the path
      left
      rw [← hboxes]
      exact List.mem_map_of_mem hus
    · exact hsettled.related.symm
  constructor
  · exact h.perm
  · exact h.ways
  · rintro x us rest ⟨⟩
    exact ⟨hv, hboxes⟩
  · exact h.pending_rest
  · intro x hx y hxy
    rcases h.settled_cases hx hxy with ⟨rfl, rfl⟩ | hwaiting | hsettled
    · exact .inr ⟨hmet, hrelated, hbest.le_closed⟩
    · exact .inl hwaiting
    · exact .inr (hsettled.mono (fun _ hz => hz) rfl rfl hbest.le_old)
  · intro c hc
    rcases hbest.origin with hold | hnew
    · exact h.cycle c (hold ▸ hc)
    · exact ⟨v, hv, w, hadj, hnew ▸ hc⟩

theorem run (hvs : vs.Nodup) (hG : Lists adjacent G vs) (hclosed : Closed G vs)
    (h : Exploring G r vs up path s) : ∃ up, Exploring G r vs up [] (search adjacent path s) := by
  fun_induction search adjacent path s generalizing up with
  | case1 s => exact ⟨up, h⟩
  | case2 v path s ih => exact ih h.back
  | case3 v w ws path s hw ih => exact ih (h.meet hvs hG (by simpa using hw))
  | case4 v w ws path s hw cycle =>
    rename_i ih
    apply ih (h.pass hclosed (by simpa using hw) _)
    rw [← (h.top v (w :: ws) path rfl).2]
    exact revised _ _

end Exploring

theorem exploring_first (adjacent : Nat → List Nat) {G : SimpleGraph Nat} {r : Nat} {vs : List Nat}
    (hr : r ∈ vs) (hG : Lists adjacent G vs) :
    Exploring G r vs (fun _ => [r]) [(r, adjacent r)] ⟨vs.erase r, [r], none⟩ := by
  constructor
  · exact (List.perm_cons_erase hr).symm
  · constructor
    · exact List.mem_singleton_self r
    · intro v hv
      exact .inl ⟨List.mem_singleton.mp hv, rfl⟩
  · rintro v ws rest ⟨⟩
    exact ⟨List.mem_singleton_self r, rfl⟩
  · intro e he w hw
    obtain rfl := List.mem_singleton.mp he
    exact (hG r hr w).mp hw
  · intro v hv w hadj
    obtain rfl := List.mem_singleton.mp hv
    exact .inl ⟨adjacent v, List.mem_singleton_self _, (hG v hr w).mpr hadj⟩
  · intro c hc
    cases hc

namespace Exploring

variable {G : SimpleGraph Nat} {r v w : Nat} {vs : List Nat} {up : Nat → List Nat} {s : Search}

theorem settle (h : Exploring G r vs up [] s) (hv : v ∈ s.met) (hadj : G.Adj v w) :
    Settled up s v w := by
  rcases h.settled v hv w hadj with ⟨ws, hws, -⟩ | hsettled
  · cases hws
  · exact hsettled

theorem mem_met_iff (h : Exploring G r vs up [] s) : v ∈ s.met ↔ G.Reachable r v := by
  constructor
  · exact h.ways.reachable
  · intro hv
    rw [SimpleGraph.reachable_iff_reflTransGen] at hv
    induction hv with
    | refl => exact h.ways.start
    | tail _ hadj ih => exact (h.settle ih hadj).met

/-- A link closes a cycle if it leads to a box that is nearer to the start and is not the next one
on the way back: depths and parents tell it as well as the path does. -/
theorem closes_iff (h : Exploring G r vs up [] s) (hv : v ∈ s.met) (hadj : G.Adj v w) :
    (closed? (up v) w).isSome ↔ (up w).length < (up v).length ∧ (up v)[1]? ≠ some w := by
  rw [Option.isSome_iff_exists]
  constructor
  · rintro ⟨c, hc⟩
    obtain ⟨k, htwo, hk, -⟩ := (closed?_eq_some (h.ways.nodup hv)).mp hc
    refine ⟨h.ways.length_lt hv (List.mem_of_getElem? hk) hadj.ne, ?_⟩
    intro hone
    have hlast : k < (up v).length := (List.getElem?_eq_some_iff.mp hk).1
    have hsame := (List.getElem?_inj hlast (h.ways.nodup hv)).mp (hk.trans hone.symm)
    omega
  · rintro ⟨hlt, hone⟩
    have hw : w ∈ up v := by
      rcases (h.settle hv hadj).related with hw | hv'
      · exact hw
      · have hgt := h.ways.length_lt (h.settle hv hadj).met hv' hadj.ne'
        omega
    obtain ⟨k, hk⟩ := List.mem_iff_getElem?.mp hw
    have htwo : 2 ≤ k := by
      obtain ⟨ws, hhead⟩ := h.ways.head hv
      match k with
      | 0 =>
        rw [hhead] at hk
        exact absurd (Option.some.inj hk) hadj.ne
      | 1 => exact absurd hk hone
      | k + 2 => omega
    exact ⟨_, (closed?_eq_some (h.ways.nodup hv)).mpr ⟨k, htwo, hk, rfl⟩⟩

end Exploring

end GraphScribe.Component
