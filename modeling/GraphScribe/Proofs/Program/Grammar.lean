import GraphScribe.Program.Category
import GraphScribe.Program.Fault
import GraphScribe.Proofs.Program.Lexemes

/-! # The grammar of control programs

    Declarations := ( Name "=" Sequence "." )*
    Sequence     := Command ( ";" Command )*
    Command      := "if" Block "then" Block [ "else" Block ]
                  | "try" Block [ "then" Block [ "else" Block ] ]
                  | Block [ "!" | "or" Block ]
    Block        := "skip" | "fail" | Name
                  | "(" Declarations Sequence ")"
                  | "{" [ Name ( "," Name )* ] "}"

The productions are stated over any alphabet, given which letters count as which terminal. Blocks are
indexed by the number of parentheses that may stand inside one another. -/
namespace GraphScribe.Program

open Lexis (NameShaped)

/-- Where a declaration stands: at the top, or in a block as the first thing or after another. -/
inductive Place where
  | top
  | first
  | inner
  deriving DecidableEq, Repr

def Place.next : Place → Place
  | .top => .top
  | .first | .inner => .inner

/-- Which letters of an alphabet stand for which terminal. What may declare a name and follow it as
an equals sign can depend on the place of the declaration. -/
structure Terminals (α : Type) where
  keyword : String → α → Prop
  mark : Category → α → Prop
  name : α → Prop
  declared : Place → α → Prop
  sign : Place → α → Prop

variable {α β σ : Type}

section Productions

variable (L : Terminals α) (B : List α → Prop)

inductive Names : List α → Prop where
  | one {a} : L.name a → Names [a]
  | more {a b x} : L.name a → L.mark .ruleSeparator b → Names x → Names (a :: b :: x)

inductive ElsePart : List α → Prop where
  | none : ElsePart []
  | some {a x} : L.keyword "else" a → B x → ElsePart (a :: x)

inductive ThenPart : List α → Prop where
  | mk {a x y} : L.keyword "then" a → B x → ElsePart L B y → ThenPart (a :: (x ++ y))

inductive Command : List α → Prop where
  | conditional {a x y} : L.keyword "if" a → B x → ThenPart L B y → Command (a :: (x ++ y))
  | attempt {a x} : L.keyword "try" a → B x → Command (a :: x)
  | attemptThen {a x y} : L.keyword "try" a → B x → ThenPart L B y → Command (a :: (x ++ y))
  | block {x} : B x → Command x
  | repeated {x a} : B x → L.mark .repetition a → Command (x ++ [a])
  | choice {x a y} : B x → L.keyword "or" a → B y → Command (x ++ a :: y)

inductive Sequence : List α → Prop where
  | one {x} : Command L B x → Sequence x
  | more {x a y} : Command L B x → L.mark .statementSeparator a → Sequence y →
      Sequence (x ++ a :: y)

inductive Declarations : Place → List α → Prop where
  | nil (p) : Declarations p []
  | cons {p a b x c y} : L.declared p a → L.sign p b → Sequence L B x →
      L.mark .declarationSeparator c → Declarations p.next y →
      Declarations p (a :: b :: (x ++ c :: y))

/-- Declarations of which the last lacks its period; without it, a body is not required either. -/
inductive Unfinished : Place → List α → Prop where
  | empty {p a b} : L.declared p a → L.sign p b → Unfinished p [a, b]
  | body {p a b x} : L.declared p a → L.sign p b → Sequence L B x → Unfinished p (a :: b :: x)
  | later {p a b x c y} : L.declared p a → L.sign p b → Sequence L B x →
      L.mark .declarationSeparator c → Unfinished p.next y → Unfinished p (a :: b :: (x ++ c :: y))

/-- A block whose inner blocks, those between its parentheses, are those of `B`. -/
inductive BlockOver : List α → Prop where
  | skip {a} : L.keyword "skip" a → BlockOver [a]
  | fail {a} : L.keyword "fail" a → BlockOver [a]
  | name {a} : L.name a → BlockOver [a]
  | parens {a x y b} : L.mark .openParen a → Declarations L B .first x → Sequence L B y →
      L.mark .closeParen b → BlockOver (a :: (x ++ (y ++ [b])))
  | noRules {a b} : L.mark .openBrace a → L.mark .closeBrace b → BlockOver [a, b]
  | rules {a x b} : L.mark .openBrace a → Names L x → L.mark .closeBrace b →
      BlockOver (a :: (x ++ [b]))

/-- Blocks with at most so many parentheses inside one another. Without any left there is no block
to be the body of one in parentheses. -/
def Block : Nat → List α → Prop
  | 0 => BlockOver L fun _ => False
  | n + 1 => BlockOver L (Block n)

def IsProgram (x : List α) : Prop := Declarations L (Block L maxNesting) .top x

/-- A program whose last declaration may lack its period, and lacking it, its body. -/
def IsLenientProgram (x : List α) : Prop := IsProgram L x ∨ Unfinished L (Block L maxNesting) .top x

end Productions

theorem Command.exists_block {L : Terminals α} {B : List α → Prop} {x : List α}
    (h : Command L B x) : ∃ y, B y := by
  cases h with
  | conditional _ hB _ => exact ⟨_, hB⟩
  | attempt _ hB => exact ⟨_, hB⟩
  | attemptThen _ hB _ => exact ⟨_, hB⟩
  | block hB => exact ⟨_, hB⟩
  | repeated hB _ => exact ⟨_, hB⟩
  | choice hB _ _ => exact ⟨_, hB⟩

theorem Sequence.exists_block {L : Terminals α} {B : List α → Prop} {x : List α}
    (h : Sequence L B x) : ∃ y, B y := by
  cases h with
  | one hC => exact hC.exists_block
  | more hC _ _ => exact hC.exists_block

inductive Terminals.Stands (L : Terminals α) : α → Prop where
  | keyword {w a} : isReserved w = true → L.keyword w a → L.Stands a
  | mark {c a} : L.mark c a → L.Stands a
  | name {a} : L.name a → L.Stands a
  | declared {p a} : L.declared p a → L.Stands a
  | sign {p a} : L.sign p a → L.Stands a

section Letters

variable {L : Terminals α} {B : List α → Prop} {x : List α}

theorem Names.stand (h : Names L x) : ∀ a ∈ x, L.Stands a := by
  induction h with
  | one ha => exact List.forall_mem_singleton.mpr (.name ha)
  | more ha hb _ ih =>
    exact List.forall_mem_cons.mpr ⟨.name ha, List.forall_mem_cons.mpr ⟨.mark hb, ih⟩⟩

theorem ElsePart.stand (hB : ∀ x, B x → ∀ a ∈ x, L.Stands a) (h : ElsePart L B x) :
    ∀ a ∈ x, L.Stands a := by
  cases h with
  | none => exact List.forall_mem_nil _
  | some ha hx => exact List.forall_mem_cons.mpr ⟨.keyword (by decide) ha, hB _ hx⟩

theorem ThenPart.stand (hB : ∀ x, B x → ∀ a ∈ x, L.Stands a) (h : ThenPart L B x) :
    ∀ a ∈ x, L.Stands a := by
  obtain ⟨ha, hx, hy⟩ := h
  exact List.forall_mem_cons.mpr ⟨.keyword (by decide) ha,
    List.forall_mem_append.mpr ⟨hB _ hx, hy.stand hB⟩⟩

theorem Command.stand (hB : ∀ x, B x → ∀ a ∈ x, L.Stands a) (h : Command L B x) :
    ∀ a ∈ x, L.Stands a := by
  cases h with
  | conditional ha hx hy =>
    exact List.forall_mem_cons.mpr ⟨.keyword (by decide) ha,
      List.forall_mem_append.mpr ⟨hB _ hx, hy.stand hB⟩⟩
  | attempt ha hx => exact List.forall_mem_cons.mpr ⟨.keyword (by decide) ha, hB _ hx⟩
  | attemptThen ha hx hy =>
    exact List.forall_mem_cons.mpr ⟨.keyword (by decide) ha,
      List.forall_mem_append.mpr ⟨hB _ hx, hy.stand hB⟩⟩
  | block hx => exact hB _ hx
  | repeated hx ha =>
    exact List.forall_mem_append.mpr ⟨hB _ hx, List.forall_mem_singleton.mpr (.mark ha)⟩
  | choice hx ha hy =>
    exact List.forall_mem_append.mpr ⟨hB _ hx,
      List.forall_mem_cons.mpr ⟨.keyword (by decide) ha, hB _ hy⟩⟩

theorem Sequence.stand (hB : ∀ x, B x → ∀ a ∈ x, L.Stands a) (h : Sequence L B x) :
    ∀ a ∈ x, L.Stands a := by
  induction h with
  | one hC => exact hC.stand hB
  | more hC ha _ ih =>
    exact List.forall_mem_append.mpr ⟨hC.stand hB, List.forall_mem_cons.mpr ⟨.mark ha, ih⟩⟩

theorem Declarations.stand (hB : ∀ x, B x → ∀ a ∈ x, L.Stands a) {p : Place}
    (h : Declarations L B p x) : ∀ a ∈ x, L.Stands a := by
  induction h with
  | nil => exact List.forall_mem_nil _
  | cons ha hb hS hc _ ih =>
    refine List.forall_mem_cons.mpr ⟨.declared ha, List.forall_mem_cons.mpr ⟨.sign hb, ?_⟩⟩
    exact List.forall_mem_append.mpr ⟨hS.stand hB, List.forall_mem_cons.mpr ⟨.mark hc, ih⟩⟩

theorem Unfinished.stand (hB : ∀ x, B x → ∀ a ∈ x, L.Stands a) {p : Place}
    (h : Unfinished L B p x) : ∀ a ∈ x, L.Stands a := by
  induction h with
  | empty ha hb =>
    exact List.forall_mem_cons.mpr ⟨.declared ha, List.forall_mem_singleton.mpr (.sign hb)⟩
  | body ha hb hS =>
    exact List.forall_mem_cons.mpr ⟨.declared ha, List.forall_mem_cons.mpr ⟨.sign hb, hS.stand hB⟩⟩
  | later ha hb hS hc _ ih =>
    refine List.forall_mem_cons.mpr ⟨.declared ha, List.forall_mem_cons.mpr ⟨.sign hb, ?_⟩⟩
    exact List.forall_mem_append.mpr ⟨hS.stand hB, List.forall_mem_cons.mpr ⟨.mark hc, ih⟩⟩

theorem BlockOver.stand (hB : ∀ x, B x → ∀ a ∈ x, L.Stands a) (h : BlockOver L B x) :
    ∀ a ∈ x, L.Stands a := by
  cases h with
  | skip ha => exact List.forall_mem_singleton.mpr (.keyword (by decide) ha)
  | fail ha => exact List.forall_mem_singleton.mpr (.keyword (by decide) ha)
  | name ha => exact List.forall_mem_singleton.mpr (.name ha)
  | parens ha hD hS hb =>
    refine List.forall_mem_cons.mpr ⟨.mark ha, List.forall_mem_append.mpr ⟨hD.stand hB, ?_⟩⟩
    exact List.forall_mem_append.mpr ⟨hS.stand hB, List.forall_mem_singleton.mpr (.mark hb)⟩
  | noRules ha hb =>
    exact List.forall_mem_cons.mpr ⟨.mark ha, List.forall_mem_singleton.mpr (.mark hb)⟩
  | rules ha hN hb =>
    exact List.forall_mem_cons.mpr ⟨.mark ha,
      List.forall_mem_append.mpr ⟨hN.stand, List.forall_mem_singleton.mpr (.mark hb)⟩⟩

theorem block_stand (n : Nat) : ∀ x, Block L n x → ∀ a ∈ x, L.Stands a := by
  induction n with
  | zero => exact fun x h => BlockOver.stand (fun _ h => h.elim) h
  | succ n ih => exact fun x h => BlockOver.stand ih h

theorem IsProgram.stand (h : IsProgram L x) : ∀ a ∈ x, L.Stands a :=
  Declarations.stand (block_stand maxNesting) h

end Letters

abbrev Lexeme := Category × String

def IsName (n : String) : Prop := NameShaped n.toList ∧ isReserved n = false

instance (n : String) : Decidable (IsName n) :=
  inferInstanceAs (Decidable (NameShaped n.toList ∧ isReserved n = false))

/-- The terminals as the categories and texts of tokens; the place of a declaration is no matter. -/
def lexemes : Terminals Lexeme where
  keyword w a := a = (.keyword, w)
  mark c a := ∃ ch, c.mark? = some ch ∧ a = (c, String.singleton ch)
  name a := a.1 = .identifier ∧ IsName a.2
  declared _ a := a.1 = .declaration ∧ IsName a.2
  sign _ a := a = (.declarationOperator, "=")

/-- Letters rewritten one by one, from left to right, in states. -/
inductive Rewrites (step : σ → α → σ → β → Prop) : σ → List α → σ → List β → Prop where
  | nil (q) : Rewrites step q [] q []
  | cons {q a q' b x q'' y} : step q a q' b → Rewrites step q' x q'' y →
      Rewrites step q (a :: x) q'' (b :: y)

/-- The letters keep the terminals that they stand for. The first declaration of a block may need
that its letter is rewritten right after the parenthesis that opens the block. -/
structure Keeps (L : Terminals α) (M : Terminals β) (step : σ → α → σ → β → Prop)
    (opened : σ → Prop) : Prop where
  keyword : ∀ {q a q' b w}, step q a q' b → L.keyword w a → M.keyword w b
  mark : ∀ {q a q' b c}, step q a q' b → L.mark c a → M.mark c b
  name : ∀ {q a q' b}, step q a q' b → L.name a → M.name b
  declared : ∀ {q a q' b p}, step q a q' b → L.declared p a → (p = .first → opened q) →
    M.declared p b
  sign : ∀ {q a q' b p}, step q a q' b → L.sign p a → M.sign p b
  opens : ∀ {q a q' b}, step q a q' b → L.mark .openParen a → opened q'

section Rewriting

variable {step : σ → α → σ → β → Prop} {opened : σ → Prop} {L : Terminals α} {M : Terminals β}
  {B : List α → Prop} {C : List β → Prop}

theorem Rewrites.split {q r : σ} {x y : List α} {z : List β} (h : Rewrites step q (x ++ y) r z) :
    ∃ q' z₁ z₂, z = z₁ ++ z₂ ∧ Rewrites step q x q' z₁ ∧ Rewrites step q' y r z₂ := by
  induction x generalizing q z with
  | nil => exact ⟨q, [], z, rfl, .nil q, h⟩
  | cons a x ih =>
    cases h with
    | cons ha h =>
      obtain ⟨q', z₁, z₂, rfl, h₁, h₂⟩ := ih h
      exact ⟨q', _ :: z₁, z₂, rfl, .cons ha h₁, h₂⟩

theorem Rewrites.append {q r u : σ} {x y : List α} {z w : List β} (h : Rewrites step q x r z)
    (k : Rewrites step r y u w) : Rewrites step q (x ++ y) u (z ++ w) := by
  induction h with
  | nil => exact k
  | cons ha _ ih => exact .cons ha (ih k)

def RewritesBlocks (step : σ → α → σ → β → Prop) (B : List α → Prop) (C : List β → Prop) : Prop :=
  ∀ {q q' x y}, B x → Rewrites step q x q' y → C y

theorem Names.rewrite (hk : Keeps L M step opened) {q r : σ} {x : List α} {z : List β}
    (h : Names L x) (hz : Rewrites step q x r z) : Names M z := by
  induction h generalizing q z with
  | one ha =>
    cases hz with
    | cons sa hz =>
      cases hz
      exact .one (hk.name sa ha)
  | more ha hb _ ih =>
    cases hz with
    | cons sa hz =>
      cases hz with
      | cons sb hz => exact .more (hk.name sa ha) (hk.mark sb hb) (ih hz)

theorem ElsePart.rewrite (hk : Keeps L M step opened) (hB : RewritesBlocks step B C) {q r : σ}
    {x : List α} {z : List β} (h : ElsePart L B x) (hz : Rewrites step q x r z) :
    ElsePart M C z := by
  cases h with
  | none =>
    cases hz
    exact .none
  | some ha hx =>
    cases hz with
    | cons sa hz => exact .some (hk.keyword sa ha) (hB hx hz)

theorem ThenPart.rewrite (hk : Keeps L M step opened) (hB : RewritesBlocks step B C) {q r : σ}
    {x : List α} {z : List β} (h : ThenPart L B x) (hz : Rewrites step q x r z) :
    ThenPart M C z := by
  obtain ⟨ha, hx, hy⟩ := h
  cases hz with
  | cons sa hz =>
    obtain ⟨q', z₁, z₂, rfl, h₁, h₂⟩ := hz.split
    exact .mk (hk.keyword sa ha) (hB hx h₁) (hy.rewrite hk hB h₂)

theorem Command.rewrite (hk : Keeps L M step opened) (hB : RewritesBlocks step B C) {q r : σ}
    {x : List α} {z : List β} (h : Command L B x) (hz : Rewrites step q x r z) :
    Command M C z := by
  cases h with
  | conditional ha hx hy =>
    cases hz with
    | cons sa hz =>
      obtain ⟨q', z₁, z₂, rfl, h₁, h₂⟩ := hz.split
      exact .conditional (hk.keyword sa ha) (hB hx h₁) (hy.rewrite hk hB h₂)
  | attempt ha hx =>
    cases hz with
    | cons sa hz => exact .attempt (hk.keyword sa ha) (hB hx hz)
  | attemptThen ha hx hy =>
    cases hz with
    | cons sa hz =>
      obtain ⟨q', z₁, z₂, rfl, h₁, h₂⟩ := hz.split
      exact .attemptThen (hk.keyword sa ha) (hB hx h₁) (hy.rewrite hk hB h₂)
  | block hx => exact .block (hB hx hz)
  | repeated hx ha =>
    obtain ⟨q', z₁, z₂, rfl, h₁, h₂⟩ := hz.split
    cases h₂ with
    | cons sa h₂ =>
      cases h₂
      exact .repeated (hB hx h₁) (hk.mark sa ha)
  | choice hx ha hy =>
    obtain ⟨q', z₁, z₂, rfl, h₁, h₂⟩ := hz.split
    cases h₂ with
    | cons sa h₂ => exact .choice (hB hx h₁) (hk.keyword sa ha) (hB hy h₂)

theorem Sequence.rewrite (hk : Keeps L M step opened) (hB : RewritesBlocks step B C) {q r : σ}
    {x : List α} {z : List β} (h : Sequence L B x) (hz : Rewrites step q x r z) :
    Sequence M C z := by
  induction h generalizing q z with
  | one hx => exact .one (hx.rewrite hk hB hz)
  | more hx ha _ ih =>
    obtain ⟨q', z₁, z₂, rfl, h₁, h₂⟩ := hz.split
    cases h₂ with
    | cons sa h₂ => exact .more (hx.rewrite hk hB h₁) (hk.mark sa ha) (ih h₂)

theorem Place.next_ne_first (p : Place) : p.next ≠ .first := by
  cases p <;> decide

theorem Declarations.rewrite (hk : Keeps L M step opened) (hB : RewritesBlocks step B C) {q r : σ}
    {p : Place} {x : List α} {z : List β} (h : Declarations L B p x)
    (hz : Rewrites step q x r z) (hq : p = .first → opened q) : Declarations M C p z := by
  induction h generalizing q z with
  | nil p =>
    cases hz
    exact .nil p
  | cons ha hb hx hc _ ih =>
    cases hz with
    | cons sa hz =>
      cases hz with
      | cons sb hz =>
        obtain ⟨q', z₁, z₂, rfl, h₁, h₂⟩ := hz.split
        cases h₂ with
        | cons sc h₂ =>
          have hrest := ih h₂ fun hp => absurd hp (Place.next_ne_first _)
          exact .cons (hk.declared sa ha hq) (hk.sign sb hb) (hx.rewrite hk hB h₁)
            (hk.mark sc hc) hrest

theorem Unfinished.rewrite (hk : Keeps L M step opened) (hB : RewritesBlocks step B C) {q r : σ}
    {p : Place} {x : List α} {z : List β} (h : Unfinished L B p x)
    (hz : Rewrites step q x r z) (hq : p = .first → opened q) : Unfinished M C p z := by
  induction h generalizing q z with
  | empty ha hb =>
    cases hz with
    | cons sa hz =>
      cases hz with
      | cons sb hz =>
        cases hz
        exact .empty (hk.declared sa ha hq) (hk.sign sb hb)
  | body ha hb hx =>
    cases hz with
    | cons sa hz =>
      cases hz with
      | cons sb hz => exact .body (hk.declared sa ha hq) (hk.sign sb hb) (hx.rewrite hk hB hz)
  | later ha hb hx hc _ ih =>
    cases hz with
    | cons sa hz =>
      cases hz with
      | cons sb hz =>
        obtain ⟨q', z₁, z₂, rfl, h₁, h₂⟩ := hz.split
        cases h₂ with
        | cons sc h₂ =>
          have hrest := ih h₂ fun hp => absurd hp (Place.next_ne_first _)
          exact .later (hk.declared sa ha hq) (hk.sign sb hb) (hx.rewrite hk hB h₁)
            (hk.mark sc hc) hrest

theorem BlockOver.rewrite (hk : Keeps L M step opened) (hB : RewritesBlocks step B C) {q r : σ}
    {x : List α} {z : List β} (h : BlockOver L B x) (hz : Rewrites step q x r z) :
    BlockOver M C z := by
  cases h with
  | skip ha =>
    cases hz with
    | cons sa hz =>
      cases hz
      exact .skip (hk.keyword sa ha)
  | fail ha =>
    cases hz with
    | cons sa hz =>
      cases hz
      exact .fail (hk.keyword sa ha)
  | name ha =>
    cases hz with
    | cons sa hz =>
      cases hz
      exact .name (hk.name sa ha)
  | parens ha hx hy hb =>
    cases hz with
    | cons sa hz =>
      obtain ⟨q₁, z₁, z₂, rfl, h₁, h₂⟩ := hz.split
      obtain ⟨q₂, z₃, z₄, rfl, h₃, h₄⟩ := h₂.split
      cases h₄ with
      | cons sb h₄ =>
        cases h₄
        have hlocals := hx.rewrite hk hB h₁ fun _ => hk.opens sa ha
        exact .parens (hk.mark sa ha) hlocals (hy.rewrite hk hB h₃) (hk.mark sb hb)
  | noRules ha hb =>
    cases hz with
    | cons sa hz =>
      cases hz with
      | cons sb hz =>
        cases hz
        exact .noRules (hk.mark sa ha) (hk.mark sb hb)
  | rules ha hx hb =>
    cases hz with
    | cons sa hz =>
      obtain ⟨q', z₁, z₂, rfl, h₁, h₂⟩ := hz.split
      cases h₂ with
      | cons sb h₂ =>
        cases h₂
        exact .rules (hk.mark sa ha) (hx.rewrite hk h₁) (hk.mark sb hb)

theorem block_rewrites (hk : Keeps L M step opened) (n : Nat) :
    RewritesBlocks step (Block L n) (Block M n) := by
  induction n with
  | zero =>
    intro q r x z h hz
    exact BlockOver.rewrite hk (fun hx _ => hx) h hz
  | succ n ih =>
    intro q r x z h hz
    exact BlockOver.rewrite hk ih h hz

theorem IsProgram.rewrite (hk : Keeps L M step opened) {q r : σ} {x : List α} {z : List β}
    (h : IsProgram L x) (hz : Rewrites step q x r z) : IsProgram M z :=
  Declarations.rewrite hk (block_rewrites hk maxNesting) h hz (fun hp => by cases hp)

theorem IsLenientProgram.rewrite (hk : Keeps L M step opened) {q r : σ} {x : List α} {z : List β}
    (h : IsLenientProgram L x) (hz : Rewrites step q x r z) : IsLenientProgram M z := by
  rcases h with h | h
  · exact Or.inl (h.rewrite hk hz)
  · exact Or.inr (h.rewrite hk (block_rewrites hk maxNesting) hz (fun hp => by cases hp))

end Rewriting

end GraphScribe.Program
