import GraphScribe.Proofs.Program.Layout

/-! # Where the letters of a program stand

Every phrase of the grammar has as many closing as opening parentheses. How many are open before a
letter, and whether one was opened just before, can therefore be counted without the derivation; and
from that count it can be told at which place a declaration stands. A block needs no more levels than
the most parentheses that are open in it at a time. -/
namespace GraphScribe.Program

def Category.nest (c : Category) (depth : Nat) : Nat :=
  match c with
  | .openParen => depth + 1
  | .closeParen => depth - 1
  | _ => depth

/-- How many parentheses are open at most, where `depth` are open to begin with. -/
def deepest (depth : Nat) : List Category → Nat
  | [] => depth
  | c :: cs => max depth (deepest (c.nest depth) cs)

def nesting (ts : Tokens Category) : Nat := deepest 0 (ts.toList.map (·.category))

/-- What can be counted of the letters before a place: how many parentheses are open, and whether
the letter just before opens one. -/
structure Spot where
  depth : Nat
  opened : Bool
  deriving DecidableEq, Repr

def Spot.past (q : Spot) (c : Category) : Spot := ⟨c.nest q.depth, c = .openParen⟩

def leave (q : Spot) : List Spaced → Spot
  | [] => q
  | x :: xs => leave (q.past (categoryOf x.2)) xs

abbrev Letter := Spaced × Spot

def standing (q : Spot) : List Spaced → List Letter
  | [] => []
  | x :: xs => (x, q) :: standing (q.past (categoryOf x.2)) xs

theorem leave_append (q : Spot) (xs ys : List Spaced) :
    leave q (xs ++ ys) = leave (leave q xs) ys := by
  induction xs generalizing q with
  | nil => rfl
  | cons x xs ih => exact ih _

theorem standing_append (q : Spot) (xs ys : List Spaced) :
    standing q (xs ++ ys) = standing q xs ++ standing (leave q xs) ys := by
  induction xs generalizing q with
  | nil => rfl
  | cons x xs ih =>
    rw [List.cons_append, standing, ih]
    rfl

/-- The terminals where they stand. The first declaration of a block is the one right after the
parenthesis, and the declarations at the top are those outside all parentheses. -/
def located : Terminals Letter where
  keyword w a := spaced.keyword w a.1
  mark c a := c ≠ .declarationOperator ∧ spaced.mark c a.1
  name a := spaced.name a.1
  declared p a := spaced.declared p a.1 ∧ (p = .first ↔ a.2.opened = true)
  sign p a := spaced.sign p a.1 ∧ (p = .top ↔ a.2.depth = 0)

/-- Of `n` levels `m` will do, either in any case or because the letters go no deeper. -/
def Within (n m : Nat) (depth : Nat) (xs : List Spaced) : Prop :=
  n ≤ m ∨ deepest depth (xs.map fun x => categoryOf x.2) ≤ depth + m

theorem le_deepest (depth : Nat) (cs : List Category) : depth ≤ deepest depth cs := by
  cases cs with
  | nil => exact Nat.le_refl _
  | cons c cs => exact Nat.le_max_left _ _

theorem deepest_append (q : Spot) (xs : List Spaced) (cs : List Category) :
    deepest q.depth (xs.map (fun x => categoryOf x.2) ++ cs) =
      max (deepest q.depth (xs.map fun x => categoryOf x.2)) (deepest (leave q xs).depth cs) := by
  induction xs generalizing q with
  | nil => exact (Nat.max_eq_right (le_deepest _ _)).symm
  | cons x xs ih =>
    have hrest := ih (q.past (categoryOf x.2))
    simp only [List.map_cons, List.cons_append, deepest, leave] at hrest ⊢
    rw [Nat.max_assoc]
    exact congrArg (max q.depth) hrest

/-- The letters are balanced, and wherever they stand at a depth they make up something of `Q`. -/
def Seated (n m depth : Nat) (xs : List Spaced) (Q : List Letter → Prop) : Prop :=
  ∀ q : Spot, q.depth = depth → Within n m depth xs →
    Q (standing q xs) ∧ (leave q xs).depth = depth

def Settles (n m : Nat) (P : List Spaced → Prop) (Q : List Letter → Prop) : Prop :=
  ∀ {xs : List Spaced} (depth : Nat), P xs → Seated n m depth xs Q

def Plain (x : Spaced) : Prop := categoryOf x.2 ≠ .openParen ∧ categoryOf x.2 ≠ .closeParen

section Seating

variable {n m depth : Nat} {x : Spaced} {xs ys : List Spaced} {Q R : List Letter → Prop}

theorem Plain.past (h : Plain x) (q : Spot) : q.past (categoryOf x.2) = ⟨q.depth, false⟩ := by
  obtain ⟨hopen, hclose⟩ := h
  unfold Spot.past
  generalize categoryOf x.2 = c at hopen hclose ⊢
  cases c <;> first | rfl | exact absurd rfl hopen | exact absurd rfl hclose

theorem Within.of_cons (h : Within n m depth (x :: xs)) (hx : Plain x) : Within n m depth xs := by
  have hpast := congrArg Spot.depth (hx.past ⟨depth, false⟩)
  simp only [Spot.past] at hpast
  refine h.imp id fun h => ?_
  rw [List.map_cons, deepest, hpast] at h
  omega

theorem Within.left {q : Spot} (h : Within n m q.depth (xs ++ ys)) : Within n m q.depth xs := by
  refine h.imp id fun h => ?_
  rw [List.map_append, deepest_append] at h
  omega

theorem Within.right {q : Spot} (h : Within n m q.depth (xs ++ ys))
    (hd : (leave q xs).depth = q.depth) : Within n m q.depth ys := by
  refine h.imp id fun h => ?_
  rw [List.map_append, deepest_append, hd] at h
  omega

theorem Seated.mono (h : Seated n m depth xs Q) (hQ : ∀ z, Q z → R z) : Seated n m depth xs R := by
  intro q hq hw
  obtain ⟨hz, hd⟩ := h q hq hw
  exact ⟨hQ _ hz, hd⟩

theorem seated_nil : Seated n m depth [] fun z => z = [] := fun _ hq _ => ⟨rfl, hq⟩

theorem Seated.cons (h : Seated n m depth xs Q) (hx : Plain x) :
    Seated n m depth (x :: xs) fun z => ∃ q v, z = (x, q) :: v ∧ Q v := by
  intro q hq hw
  have hpast : (q.past (categoryOf x.2)).depth = depth := by rw [hx.past, hq]
  obtain ⟨hz, hd⟩ := h _ hpast (hw.of_cons hx)
  exact ⟨⟨q, _, rfl, hz⟩, hd⟩

theorem Seated.append (h : Seated n m depth xs Q) (k : Seated n m depth ys R) :
    Seated n m depth (xs ++ ys) fun z => ∃ u v, z = u ++ v ∧ Q u ∧ R v := by
  rintro q rfl hw
  obtain ⟨hu, hd⟩ := h q rfl hw.left
  obtain ⟨hv, hd'⟩ := k (leave q xs) hd (hw.right hd)
  refine ⟨⟨_, _, standing_append q xs ys, hu, hv⟩, ?_⟩
  rw [leave_append]
  exact hd'

theorem Seated.snoc (h : Seated n m depth xs Q) (hx : Plain x) :
    Seated n m depth (xs ++ [x]) fun z => ∃ u q, z = u ++ [(x, q)] ∧ Q u := by
  refine (h.append (seated_nil.cons hx)).mono ?_
  rintro z ⟨u, v, rfl, hu, q, w, rfl, rfl⟩
  exact ⟨u, q, rfl, hu⟩

end Seating

section Plain

variable {x : Spaced}

theorem plain_of_token {c : Category} {r : List Char} (h : x.2 = .token c r)
    (hopen : c ≠ .openParen) (hclose : c ≠ .closeParen) : Plain x := by
  unfold Plain
  rw [h]
  exact ⟨hopen, hclose⟩

theorem category_of_mark {c : Category} (h : spaced.mark c x) : categoryOf x.2 = c := by
  obtain ⟨_, _, h, _⟩ := h
  rw [h]
  rfl

theorem plain_keyword {w : String} (h : spaced.keyword w x) : Plain x :=
  plain_of_token h.1 (by decide) (by decide)

theorem plain_name (h : spaced.name x) : Plain x := by
  obtain ⟨_, _, h, _⟩ := h
  exact plain_of_token h (by decide) (by decide)

theorem plain_mark {c : Category} (h : spaced.mark c x) (hopen : c ≠ .openParen)
    (hclose : c ≠ .closeParen) : Plain x := by
  obtain ⟨_, _, h, _⟩ := h
  exact plain_of_token h hopen hclose

theorem plain_declared {p : Place} (h : spaced.declared p x) : Plain x := by
  obtain ⟨_, _, ⟨h, _⟩, _⟩ := h
  exact plain_of_token h (by decide) (by decide)

theorem plain_sign {p : Place} (h : spaced.sign p x) : Plain x :=
  plain_of_token h.1.1 (by decide) (by decide)

end Plain

section Productions

variable {n m : Nat} {B : List Spaced → Prop} {C : List Letter → Prop}

theorem Names.settles : Settles n m (Names spaced) (Names located) := by
  intro xs depth h
  induction h with
  | one ha =>
    refine (seated_nil.cons (plain_name ha)).mono ?_
    rintro _ ⟨q, v, rfl, rfl⟩
    exact .one ha
  | more ha hb _ ih =>
    refine ((ih.cons (plain_mark hb (by decide) (by decide))).cons (plain_name ha)).mono ?_
    rintro _ ⟨q, _, rfl, r, v, rfl, hv⟩
    exact .more ha ⟨by decide, hb⟩ hv

theorem ElsePart.settles (hB : Settles n m B C) :
    Settles n m (ElsePart spaced B) (ElsePart located C) := by
  intro xs depth h
  cases h with
  | none =>
    refine seated_nil.mono ?_
    rintro _ rfl
    exact .none
  | some ha hx =>
    refine ((hB depth hx).cons (plain_keyword ha)).mono ?_
    rintro _ ⟨q, v, rfl, hv⟩
    exact .some ha hv

theorem ThenPart.settles (hB : Settles n m B C) :
    Settles n m (ThenPart spaced B) (ThenPart located C) := by
  intro xs depth h
  obtain ⟨ha, hx, hy⟩ := h
  refine (((hB depth hx).append (hy.settles hB depth)).cons (plain_keyword ha)).mono ?_
  rintro _ ⟨q, _, rfl, u, v, rfl, hu, hv⟩
  exact .mk ha hu hv

theorem Command.settles (hB : Settles n m B C) :
    Settles n m (Command spaced B) (Command located C) := by
  intro xs depth h
  cases h with
  | conditional ha hx hy =>
    have hthen := ThenPart.settles hB depth hy
    refine (((hB depth hx).append hthen).cons (plain_keyword ha)).mono ?_
    rintro _ ⟨q, _, rfl, u, v, rfl, hu, hv⟩
    exact .conditional ha hu hv
  | attempt ha hx =>
    refine ((hB depth hx).cons (plain_keyword ha)).mono ?_
    rintro _ ⟨q, v, rfl, hv⟩
    exact .attempt ha hv
  | attemptThen ha hx hy =>
    have hthen := ThenPart.settles hB depth hy
    refine (((hB depth hx).append hthen).cons (plain_keyword ha)).mono ?_
    rintro _ ⟨q, _, rfl, u, v, rfl, hu, hv⟩
    exact .attemptThen ha hu hv
  | block hx => exact (hB depth hx).mono fun _ => .block
  | repeated hx ha =>
    refine ((hB depth hx).snoc (plain_mark ha (by decide) (by decide))).mono ?_
    rintro _ ⟨u, q, rfl, hu⟩
    exact .repeated hu ⟨by decide, ha⟩
  | choice hx ha hy =>
    refine ((hB depth hx).append ((hB depth hy).cons (plain_keyword ha))).mono ?_
    rintro _ ⟨u, _, rfl, hu, q, v, rfl, hv⟩
    exact .choice hu ha hv

theorem Sequence.settles (hB : Settles n m B C) :
    Settles n m (Sequence spaced B) (Sequence located C) := by
  intro xs depth h
  induction h with
  | one hC => exact (Command.settles hB depth hC).mono fun _ => .one
  | more hC ha _ ih =>
    have hrest := ih.cons (plain_mark ha (by decide) (by decide))
    refine ((Command.settles hB depth hC).append hrest).mono ?_
    rintro _ ⟨u, _, rfl, hu, q, v, rfl, hv⟩
    exact .more hu ⟨by decide, ha⟩ hv

structure Place.Begins (p : Place) (q : Spot) : Prop where
  opened : p = .first ↔ q.opened = true
  outside : p = .top ↔ q.depth = 0

theorem Place.Begins.next {p : Place} {q : Spot} (h : p.Begins q) :
    p.next.Begins ⟨q.depth, false⟩ where
  opened := by simp [p.next_ne_first]
  outside := by
    rw [← h.outside]
    cases p <;> decide

/-- The head of a declaration where it stands. -/
theorem head_located {p : Place} {q : Spot} {a b : Spaced} (hp : p.Begins q)
    (ha : spaced.declared p a) (hb : spaced.sign p b) (xs : List Spaced) :
    standing q (a :: b :: xs) =
        (a, q) :: (b, ⟨q.depth, false⟩) :: standing ⟨q.depth, false⟩ xs ∧
      leave q (a :: b :: xs) = leave ⟨q.depth, false⟩ xs ∧
      located.declared p (a, q) ∧ located.sign p (b, ⟨q.depth, false⟩) := by
  have hpast := (plain_declared ha).past q
  have hpast' := (plain_sign hb).past ⟨q.depth, false⟩
  refine ⟨?_, ?_, ⟨ha, hp.opened⟩, hb, hp.outside⟩
  · rw [standing, hpast, standing, hpast']
  · rw [leave, hpast, leave, hpast']

theorem Within.of_head {depth : Nat} {p : Place} {a b : Spaced} {xs : List Spaced}
    (h : Within n m depth (a :: b :: xs)) (ha : spaced.declared p a) (hb : spaced.sign p b) :
    Within n m depth xs := (h.of_cons (plain_declared ha)).of_cons (plain_sign hb)

theorem seated_later {p : Place} {q : Spot} {c : Spaced} {y : List Spaced} {R : List Letter → Prop}
    (hp : p.Begins q) (hc : spaced.mark .declarationSeparator c)
    (hy : ∀ {r : Spot}, p.next.Begins r → Within n m r.depth y →
      R (standing r y) ∧ (leave r y).depth = r.depth) :
    Seated n m q.depth (c :: y) fun z => ∃ r v, z = (c, r) :: v ∧ R v := by
  intro r hr hw
  have hplain := plain_mark hc (by decide) (by decide)
  have hbegins : p.next.Begins ⟨r.depth, false⟩ := by
    rw [hr]
    exact hp.next
  rw [← hr] at hw
  obtain ⟨hv, hd⟩ := hy hbegins (hw.of_cons hplain)
  refine ⟨⟨r, _, by rw [standing, hplain.past], hv⟩, ?_⟩
  rw [leave, hplain.past, hd, hr]

theorem Declarations.settles (hB : Settles n m B C) {p : Place} {xs : List Spaced}
    (h : Declarations spaced B p xs) {q : Spot} (hp : p.Begins q) (hw : Within n m q.depth xs) :
    Declarations located C p (standing q xs) ∧ (leave q xs).depth = q.depth := by
  induction h generalizing q with
  | nil p => exact ⟨.nil p, rfl⟩
  | @cons p a b x c y ha hb hS hc _ ih =>
    obtain ⟨hstand, hleave, ha', hb'⟩ := head_located hp ha hb (x ++ c :: y)
    obtain ⟨⟨u, _, hz, hu, s, v, rfl, hv⟩, hd⟩ :=
      (Sequence.settles hB q.depth hS).append (seated_later hp hc ih) ⟨q.depth, false⟩ rfl
        (hw.of_head ha hb)
    rw [hstand, hz, hleave]
    exact ⟨.cons ha' hb' hu ⟨by decide, hc⟩ hv, hd⟩

theorem Unfinished.settles (hB : Settles n m B C) {p : Place} {xs : List Spaced}
    (h : Unfinished spaced B p xs) {q : Spot} (hp : p.Begins q) (hw : Within n m q.depth xs) :
    Unfinished located C p (standing q xs) ∧ (leave q xs).depth = q.depth := by
  induction h generalizing q with
  | @empty p a b ha hb =>
    obtain ⟨hstand, hleave, ha', hb'⟩ := head_located hp ha hb []
    rw [hstand, hleave]
    exact ⟨.empty ha' hb', rfl⟩
  | @body p a b x ha hb hS =>
    obtain ⟨hstand, hleave, ha', hb'⟩ := head_located hp ha hb x
    obtain ⟨hu, hd⟩ := Sequence.settles hB q.depth hS ⟨q.depth, false⟩ rfl (hw.of_head ha hb)
    rw [hstand, hleave]
    exact ⟨.body ha' hb' hu, hd⟩
  | @later p a b x c y ha hb hS hc _ ih =>
    obtain ⟨hstand, hleave, ha', hb'⟩ := head_located hp ha hb (x ++ c :: y)
    obtain ⟨⟨u, _, hz, hu, s, v, rfl, hv⟩, hd⟩ :=
      (Sequence.settles hB q.depth hS).append (seated_later hp hc ih) ⟨q.depth, false⟩ rfl
        (hw.of_head ha hb)
    rw [hstand, hz, hleave]
    exact ⟨.later ha' hb' hu ⟨by decide, hc⟩ hv, hd⟩

theorem Within.of_parens {depth : Nat} {a : Spaced} {xs : List Spaced}
    (h : Within (n + 1) (m + 1) depth (a :: xs)) (ha : spaced.mark .openParen a) :
    Within n m (depth + 1) xs := by
  refine h.imp Nat.le_of_succ_le_succ fun h => ?_
  rw [List.map_cons, category_of_mark ha, deepest] at h
  simp only [Category.nest] at h
  omega

theorem Within.not_opening {depth : Nat} {a : Spaced} {xs : List Spaced}
    (h : Within (n + 1) 0 depth (a :: xs)) : ¬spaced.mark .openParen a := by
  intro ha
  have hle := le_deepest (depth + 1) (xs.map fun x => categoryOf x.2)
  rcases h with h | h
  · omega
  · rw [List.map_cons, category_of_mark ha, deepest] at h
    simp only [Category.nest] at h
    omega

theorem parens_settle (hB : Settles n m B C) {a b : Spaced} {x y : List Spaced}
    (ha : spaced.mark .openParen a) (hD : Declarations spaced B .first x)
    (hS : Sequence spaced B y) (hb : spaced.mark .closeParen b) {q : Spot}
    (hw : Within (n + 1) (m + 1) q.depth (a :: (x ++ (y ++ [b])))) :
    BlockOver located C (standing q (a :: (x ++ (y ++ [b])))) ∧
      (leave q (a :: (x ++ (y ++ [b])))).depth = q.depth := by
  have hin : q.past (categoryOf a.2) = ⟨q.depth + 1, true⟩ := by
    rw [category_of_mark ha]
    rfl
  have hbegins : Place.first.Begins ⟨q.depth + 1, true⟩ := ⟨by simp, by simp⟩
  have hw : Within n m (⟨q.depth + 1, true⟩ : Spot).depth (x ++ (y ++ [b])) := hw.of_parens ha
  obtain ⟨hx, hdx⟩ := hD.settles hB hbegins hw.left
  have hwy := hw.right hdx
  rw [← hdx] at hwy
  obtain ⟨hy, hdy⟩ := Sequence.settles hB _ hS _ rfl hwy.left
  -- what is inside is balanced, so the last parenthesis closes the first
  have hout : ((leave (leave ⟨q.depth + 1, true⟩ x) y).past (categoryOf b.2)).depth = q.depth := by
    rw [category_of_mark hb]
    simp only [Spot.past, Category.nest, hdy, hdx]
    omega
  rw [standing, leave, hin, standing_append, standing_append, leave_append, leave_append]
  exact ⟨.parens ⟨by decide, ha⟩ hx hy ⟨by decide, hb⟩, hout⟩

/-- Blocks stand as blocks of `m` levels, if those one level further down do. -/
theorem BlockOver.settles (hzero : n = 0 → ∀ x, ¬B x)
    (hB : ∀ k l, n = k + 1 → m = l + 1 → Settles k l B C) :
    Settles n m (BlockOver spaced B) (BlockOver located C) := by
  intro xs depth h
  cases h with
  | skip ha =>
    refine (seated_nil.cons (plain_keyword ha)).mono ?_
    rintro _ ⟨q, _, rfl, rfl⟩
    exact .skip ha
  | fail ha =>
    refine (seated_nil.cons (plain_keyword ha)).mono ?_
    rintro _ ⟨q, _, rfl, rfl⟩
    exact .fail ha
  | name ha =>
    refine (seated_nil.cons (plain_name ha)).mono ?_
    rintro _ ⟨q, _, rfl, rfl⟩
    exact .name ha
  | parens ha hD hS hb =>
    rintro q rfl hw
    cases n with
    | zero =>
      obtain ⟨z, hz⟩ := hS.exists_block
      exact absurd hz (hzero rfl z)
    | succ k =>
      cases m with
      | zero => exact absurd ha hw.not_opening
      | succ l => exact parens_settle (hB k l rfl rfl) ha hD hS hb hw
  | noRules ha hb =>
    have hnil : Seated n m depth [] fun z => z = [] := seated_nil
    have hrest := hnil.cons (plain_mark hb (by decide) (by decide))
    refine (hrest.cons (plain_mark ha (by decide) (by decide))).mono ?_
    rintro _ ⟨q, _, rfl, r, _, rfl, rfl⟩
    exact .noRules ⟨by decide, ha⟩ ⟨by decide, hb⟩
  | rules ha hN hb =>
    have hrest := (Names.settles (n := n) (m := m) depth hN).snoc
      (plain_mark hb (by decide) (by decide))
    refine (hrest.cons (plain_mark ha (by decide) (by decide))).mono ?_
    rintro _ ⟨q, _, rfl, u, r, rfl, hu⟩
    exact .rules ⟨by decide, ha⟩ hu ⟨by decide, hb⟩

end Productions

theorem block_settles (n m : Nat) : Settles n m (Block spaced n) (Block located m) := by
  -- both numbers of levels go down at each parenthesis; where either is used up, none can open
  induction n generalizing m with
  | zero =>
    cases m with
    | zero => exact BlockOver.settles (fun _ _ h => h) fun k l hk _ => absurd hk (by omega)
    | succ m => exact BlockOver.settles (fun _ _ h => h) fun k l hk _ => absurd hk (by omega)
  | succ n ih =>
    cases m with
    | zero =>
      exact BlockOver.settles (fun hn => absurd hn (by omega)) fun k l _ hl => absurd hl (by omega)
    | succ m =>
      refine BlockOver.settles (fun hn => absurd hn (by omega)) ?_
      intro k l hk hl
      cases hk
      cases hl
      exact ih m

def LenientAt {α : Type} (L : Terminals α) (n : Nat) (p : Place) (x : List α) : Prop :=
  Declarations L (Block L n) p x ∨ Unfinished L (Block L n) p x

theorem LenientAt.settles {n m : Nat} {p : Place} {xs : List Spaced} (h : LenientAt spaced n p xs)
    {q : Spot} (hp : p.Begins q) (hw : Within n m q.depth xs) :
    LenientAt located m p (standing q xs) :=
  h.imp (fun h => (h.settles (block_settles n m) hp hw).1)
    (fun h => (h.settles (block_settles n m) hp hw).1)

theorem LenientAt.rewrite {α β σ : Type} {L : Terminals α} {M : Terminals β}
    {step : σ → α → σ → β → Prop} {opened : σ → Prop} (hk : Keeps L M step opened) {n : Nat}
    {p : Place} {x : List α} (h : LenientAt L n p x) (hp : p ≠ .first) {q r : σ} {z : List β}
    (hz : Rewrites step q x r z) : LenientAt M n p z :=
  h.imp (fun h => h.rewrite hk (block_rewrites hk n) hz fun hq => absurd hq hp)
    (fun h => h.rewrite hk (block_rewrites hk n) hz fun hq => absurd hq hp)

def withoutSpot (_ : Unit) (a : Letter) (_ : Unit) (x : Spaced) : Prop := x = a.1

theorem located_keeps : Keeps located spaced withoutSpot fun _ => True where
  keyword := by rintro _ a _ _ w rfl h; exact h
  mark := by rintro _ a _ _ c rfl h; exact h.2
  name := by rintro _ a _ _ rfl h; exact h
  declared := by rintro _ a _ _ p rfl h _; exact h.1
  sign := by rintro _ a _ _ p rfl h; exact h.1
  opens := fun _ _ => trivial

theorem standing_rewrites (q : Spot) (xs : List Spaced) :
    Rewrites withoutSpot () (standing q xs) () xs := by
  induction xs generalizing q with
  | nil => exact .nil ()
  | cons x xs ih => exact .cons rfl (ih _)

/-- A program at the top whose gaps are blank is one inside a block too. -/
theorem lenient_inside {B : List Spaced → Prop} {xs : List Spaced}
    (hblank : ∀ x ∈ xs, x.OnlyBlanks)
    (h : Declarations spaced B .top xs ∨ Unfinished spaced B .top xs) :
    Declarations spaced B .inner xs ∨ Unfinished spaced B .inner xs := by
  -- of the two places only the inner one asks something of a sign, and that its gap fulfils
  have hdecl : ∀ {a}, spaced.declared .top a → spaced.declared .inner a := by
    rintro a ⟨n, hn, ha, _⟩
    exact ⟨n, hn, ha, fun hp => by cases hp⟩
  have hsign : ∀ {b}, b.OnlyBlanks → spaced.sign .top b → spaced.sign .inner b :=
    fun hb h => ⟨h.1, fun _ => hb⟩
  generalize hp : Place.top = p at h
  rcases h with h | h
  · left
    induction h with
    | nil => exact .nil _
    | @cons p a b x c y ha hb hS hc _ ih =>
      subst hp
      have hy := ih (fun z hz => hblank z (by simp [hz])) rfl
      exact .cons (hdecl ha) (hsign (hblank b (by simp)) hb) hS hc hy
  · right
    induction h with
    | @empty p a b ha hb =>
      subst hp
      exact .empty (hdecl ha) (hsign (hblank b (by simp)) hb)
    | @body p a b x ha hb hS =>
      subst hp
      exact .body (hdecl ha) (hsign (hblank b (by simp)) hb) hS
    | @later p a b x c y ha hb hS hc _ ih =>
      subst hp
      have hy := ih (fun z hz => hblank z (by simp [hz])) rfl
      exact .later (hdecl ha) (hsign (hblank b (by simp)) hb) hS hc hy

/-- A program without comments can stand in any scope where there are as many levels as it is
deep. -/
theorem lenient_anywhere {n m : Nat} {xs : List Spaced} (h : LenientAt spaced n .top xs)
    (hdeep : deepest 0 (xs.map fun x => categoryOf x.2) ≤ m) (hblank : ∀ x ∈ xs, x.OnlyBlanks)
    (scope : Scope) : ∃ p : Place, p.scope = scope ∧ LenientAt spaced m p xs := by
  have hw : Within n m (⟨0, false⟩ : Spot).depth xs := Or.inr (by simpa using hdeep)
  have hlocated : LenientAt located m .top (standing ⟨0, false⟩ xs) :=
    h.settles ⟨by simp, by simp⟩ hw
  have htop : LenientAt spaced m .top xs :=
    hlocated.rewrite located_keeps (by decide) (standing_rewrites _ xs)
  cases scope with
  | top => exact ⟨.top, rfl, htop⟩
  | inner => exact ⟨.inner, rfl, lenient_inside hblank htop⟩

end GraphScribe.Program
