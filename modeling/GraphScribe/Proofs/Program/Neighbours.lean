import GraphScribe.Proofs.Program.Composition
import GraphScribe.Proofs.Program.Layout
import Mathlib.Data.List.Chain

/-! # Neighbouring tokens

However malformed a program is, and wherever its equals signs and commas end up, those that are kept
stand between the tokens they belong to: a declared name is followed by its sign, a sign comes after
the name that it was meant to declare, and a comma has a rule name on either side. Comments do not
count as neighbours. -/
namespace GraphScribe.Program

open Lexis (NameShaped)

/-- A name that an equals sign declares, or a reserved word that it cannot declare. -/
def IsDeclared (l : Lexeme) : Prop :=
  l.1 = .declaration ∨ (l.1 = .error ∧ isReserved l.2 = true)

/-- The name of a rule, or a reserved word in its place. -/
def IsRule (l : Lexeme) : Prop :=
  NameShaped l.2.toList ∧ (l.1 = .identifier ∨ (l.1 = .error ∧ isReserved l.2 = true))

structure Follows (a b : Lexeme) : Prop where
  sign_after : a.1 = .declaration → b.1 = .declarationOperator
  declared_before : b.1 = .declarationOperator → IsDeclared a
  rule_after : a.1 = .ruleSeparator → IsRule b
  rule_before : b.1 = .ruleSeparator → IsRule a

/-- Each token may come after the one before it, and the first and the last ask for nothing of what
may stand around them. -/
structure Settled (ls : List Lexeme) : Prop where
  chain : ls.IsChain Follows
  first : ∀ b ∈ ls.head?, b.1 ≠ .declarationOperator ∧ b.1 ≠ .ruleSeparator
  last : ∀ a ∈ ls.getLast?, a.1 ≠ .declaration ∧ a.1 ≠ .ruleSeparator

theorem IsDeclared.not_separator {l : Lexeme} (h : IsDeclared l) :
    l.1 ≠ .declarationOperator ∧ l.1 ≠ .ruleSeparator := by
  rcases h with h | ⟨h, -⟩
  · rw [h]
    decide
  · rw [h]
    decide

theorem IsRule.loose {l : Lexeme} (h : IsRule l) : l.1.Loose := by
  rcases h.2 with h | ⟨h, -⟩
  · rw [h]
    decide
  · rw [h]
    decide

theorem Follows.of_free {a b : Lexeme} (ha : a.1 ≠ .declaration ∧ a.1 ≠ .ruleSeparator)
    (hb : b.1 ≠ .declarationOperator ∧ b.1 ≠ .ruleSeparator) : Follows a b where
  sign_after := fun h => absurd h ha.1
  declared_before := fun h => absurd h hb.1
  rule_after := fun h => absurd h ha.2
  rule_before := fun h => absurd h hb.2

namespace Settled

variable {a : Lexeme} {ls ms : List Lexeme} {s : String}

theorem nil : Settled [] where
  chain := .nil
  first := by rintro b ⟨⟩
  last := by rintro a ⟨⟩

theorem single (h : a.1.Loose) : Settled [a] where
  chain := .singleton a
  first := by
    rintro b ⟨⟩
    exact ⟨h.2.1, h.2.2⟩
  last := by
    rintro b ⟨⟩
    exact ⟨h.1, h.2.2⟩

theorem error : Settled [(.error, s)] := .single ⟨by rintro ⟨⟩, by rintro ⟨⟩, by rintro ⟨⟩⟩

theorem append (h : Settled ls) (k : Settled ms) : Settled (ls ++ ms) where
  chain := List.isChain_append.mpr ⟨h.chain, k.chain, fun a ha b hb =>
    .of_free (h.last a ha) (k.first b hb)⟩
  first := by
    intro b hb
    rw [List.head?_append] at hb
    rcases Option.or_eq_some_iff.mp hb with hb | ⟨-, hb⟩
    · exact h.first b hb
    · exact k.first b hb
  last := by
    intro a ha
    rw [List.getLast?_append] at ha
    rcases Option.or_eq_some_iff.mp ha with ha | ⟨-, ha⟩
    · exact k.last a ha
    · exact h.last a ha

theorem head (h : IsDeclared a) : Settled [a, (.declarationOperator, s)] where
  chain := List.isChain_pair.mpr
    ⟨fun _ => rfl, fun _ => h, fun ha => absurd ha h.not_separator.2, by rintro ⟨⟩⟩
  first := by
    rintro b ⟨⟩
    exact h.not_separator
  last := by
    rintro b ⟨⟩
    exact ⟨by rintro ⟨⟩, by rintro ⟨⟩⟩

theorem rule (h : IsRule a) (hmore : ∃ b ∈ ls.head?, IsRule b) (k : Settled ls) :
    Settled (a :: (.ruleSeparator, s) :: ls) := by
  obtain ⟨b, hb, hrule⟩ := hmore
  obtain ⟨ms, rfl⟩ := List.head?_eq_some_iff.mp hb
  have hcomma : Follows a (.ruleSeparator, s) :=
    ⟨fun ha => absurd ha h.loose.1, by rintro ⟨⟩, fun ha => absurd ha h.loose.2.2, fun _ => h⟩
  have hnext : Follows (.ruleSeparator, s) b :=
    ⟨by rintro ⟨⟩, fun hb => absurd hb hrule.loose.2.1, fun _ => hrule,
      fun hb => absurd hb hrule.loose.2.2⟩
  refine ⟨.cons_cons hcomma (.cons_cons hnext k.chain), ?_, ?_⟩
  · rintro b ⟨⟩
    exact ⟨h.loose.2.1, h.loose.2.2⟩
  · intro c hc
    rw [List.getLast?_cons_cons, List.getLast?_cons_cons] at hc
    exact k.last c hc

end Settled

def lexemesOf (ps : List Piece) : List Lexeme := ps.filterMap lexeme?

theorem lexemesOf_append (ps qs : List Piece) :
    lexemesOf (ps ++ qs) = lexemesOf ps ++ lexemesOf qs := List.filterMap_append

theorem lexemesOf_past_gap (s : List Char) (ps : List Piece) :
    lexemesOf ((gaps s).pieces ++ ps) = lexemesOf ps := by
  rw [lexemesOf_append, lexemesOf, filterMap_gap (isGap_of_mem_gaps s), List.nil_append]

theorem settled_recover (e : Expectation) (s : List Char) :
    Settled (lexemesOf (recover e s).pieces) := by
  rw [recover]
  split
  · exact .error
  · exact .nil

theorem ruleEnd_cases (s : List Char) :
    (∃ comma, lexemesOf (ruleEnd s).pieces = [(.ruleSeparator, comma)] ∧
        starts .identifier (gaps (ruleEnd s).rest).rest = true) ∨
      Settled (lexemesOf (ruleEnd s).pieces) := by
  rw [ruleEnd]
  dsimp only
  split
  · rename_i comma rest h
    rw [lexemesOf_past_gap]
    by_cases hnext : starts .identifier (gaps rest).rest = true
    · rw [if_pos hnext]
      exact .inl ⟨_, rfl, hnext⟩
    · rw [if_neg hnext]
      exact .inr (.error)
  · split
    · exact .inr .nil
    · right
      rw [Reading.after_pieces, lexemesOf_past_gap]
      exact settled_recover _ _

/-- What one step of a rule set reads: a rule with what follows it, or something else instead. -/
theorem ruleStep_cases {s : List Char} {r : Reading} (h : ruleStep s = some r) :
    (∃ a rest, IsRule a ∧ r.rest = (ruleEnd rest).rest ∧
        lexemesOf r.pieces = a :: lexemesOf (ruleEnd rest).pieces) ∨
      (starts .identifier (gaps s).rest = false ∧ Settled (lexemesOf r.pieces)) := by
  rw [ruleStep] at h
  dsimp only at h
  split at h
  · cases h
  · split at h
    · rename_i hnone
      cases h
      right
      rw [Reading.after_pieces, lexemesOf_past_gap]
      exact ⟨by rw [starts, hnone]; rfl, settled_recover _ _⟩
    · rename_i name rest hname
      cases h
      left
      have hshape : NameShaped name := by
        rw [read?_identifier] at hname
        exact (Lexis.readName_eq_some_iff.mp hname).1
      rw [Reading.after_pieces, List.append_assoc, lexemesOf_past_gap]
      by_cases hreserved : isReserved (String.ofList name) = true
      · rw [if_pos hreserved]
        refine ⟨(.error, String.ofList name), rest, ⟨?_, .inr ⟨rfl, hreserved⟩⟩, rfl, rfl⟩
        rwa [String.toList_ofList]
      · rw [if_neg hreserved]
        refine ⟨(.identifier, String.ofList name), rest, ⟨?_, .inl rfl⟩, rfl, rfl⟩
        rwa [String.toList_ofList]

theorem ruleStep_ne_none {s : List Char} (h : starts .identifier (gaps s).rest = true) :
    ruleStep s ≠ none := by
  obtain ⟨⟨name, rest⟩, hname⟩ := Option.isSome_iff_exists.mp h
  have hends : ruleSetEnds (gaps s).rest = false := by
    rw [read?_identifier] at hname
    exact ruleSetEnds_of_readName hname
  rw [ruleStep]
  simp [hends, hname]

/-- The rules of a rule set are settled. A rule comes first where a name does, so that the comma
before it, which an earlier step has read, has its neighbour. -/
theorem rules_settled (s : List Char) :
    Settled (lexemesOf (Reading.many ruleStep s).pieces) ∧
      (starts .identifier (gaps s).rest = true →
        ∃ b ∈ (lexemesOf (Reading.many ruleStep s).pieces).head?, IsRule b) := by
  refine Reading.many_induction ruleStep_scans
    (P := fun s r => Settled (lexemesOf r.pieces) ∧
      (starts .identifier (gaps s).rest = true → ∃ b ∈ (lexemesOf r.pieces).head?, IsRule b))
    ?_ ?_ s
  · intro s hnone
    exact ⟨.nil, fun hname => absurd hnone (ruleStep_ne_none hname)⟩
  · intro s r hr ih
    have hpieces : (r.andThen (Reading.many ruleStep)).pieces =
        r.pieces ++ (Reading.many ruleStep r.rest).pieces := rfl
    rw [hpieces, lexemesOf_append]
    rcases ruleStep_cases hr with ⟨a, rest, ha, hrest, hlexemes⟩ | ⟨hname, hsettled⟩
    · rw [hlexemes, List.cons_append]
      refine ⟨?_, fun _ => ⟨a, rfl, ha⟩⟩
      rcases ruleEnd_cases rest with ⟨comma, hcomma, hnext⟩ | hend
      · rw [hcomma]
        exact .rule ha (ih.2 (hrest ▸ hnext)) ih.1
      · exact (Settled.single ha.loose).append (hend.append ih.1)
    · refine ⟨hsettled.append ih.1, fun h => ?_⟩
      rw [hname] at h
      cases h

theorem lexemesOf_head {p : Piece} {a : Lexeme} (hp : lexeme? p = some a) (s sign : List Char) :
    lexemesOf (p :: (gaps s).pieces ++ [.token .declarationOperator sign]) =
      [a, (.declarationOperator, String.ofList sign)] := by
  rw [List.cons_append, lexemesOf, List.filterMap_cons_some hp, ← lexemesOf, lexemesOf_past_gap]
  rfl

theorem head_settled (name s : List Char) :
    Settled (lexemesOf (declarationHead name s).1.pieces) := by
  rw [declarationHead]
  dsimp only
  split
  · by_cases hreserved : isReserved (String.ofList name) = true
    · rw [if_pos hreserved, lexemesOf_head rfl]
      exact .head (.inr ⟨rfl, hreserved⟩)
    · rw [if_neg hreserved, lexemesOf_head rfl]
      exact .head (.inl rfl)
  · exact .error

theorem settled_compositional : Compositional fun ps => Settled (lexemesOf ps) where
  gap := by
    intro ps h
    rw [lexemesOf, filterMap_gap h]
    exact .nil
  token := by
    intro c r hc
    by_cases hcomment : c = .comment
    · have hnone : lexeme? (.token c r : Piece) = none := if_pos hcomment
      rw [lexemesOf, List.filterMap_cons_none hnone]
      exact .nil
    · have hsome : lexeme? (.token c r : Piece) = some (c, String.ofList r) := if_neg hcomment
      rw [lexemesOf, List.filterMap_cons_some hsome]
      exact .single hc
  fault := fun _ _ => .error
  head := head_settled
  rules := fun s => (rules_settled s).1
  append := by
    intro ps qs hps hqs
    rw [lexemesOf_append]
    exact hps.append hqs

section Neighbours

variable {before after : List Lexeme} {x : Lexeme}

theorem Settled.exists_before (h : Settled (before ++ x :: after))
    (hx : x.1 = .declarationOperator ∨ x.1 = .ruleSeparator) :
    ∃ a ∈ before.getLast?, Follows a x := by
  cases hlast : before.getLast? with
  | none =>
    obtain rfl := List.getLast?_eq_none_iff.mp hlast
    obtain ⟨hsign, hcomma⟩ := h.first x rfl
    exact absurd hx (not_or.mpr ⟨hsign, hcomma⟩)
  | some a =>
    obtain ⟨-, -, hbefore⟩ := List.isChain_append.mp h.chain
    exact ⟨a, rfl, hbefore a hlast x rfl⟩

theorem Settled.exists_after (h : Settled (before ++ x :: after))
    (hx : x.1 = .declaration ∨ x.1 = .ruleSeparator) : ∃ b ∈ after.head?, Follows x b := by
  cases hhead : after.head? with
  | none =>
    obtain rfl := List.head?_eq_none_iff.mp hhead
    obtain ⟨hname, hcomma⟩ := h.last x List.getLast?_concat
    exact absurd hx (not_or.mpr ⟨hname, hcomma⟩)
  | some b =>
    obtain ⟨-, hafter, -⟩ := List.isChain_append.mp h.chain
    exact ⟨b, rfl, (List.isChain_cons.mp hafter).1 b hhead⟩

end Neighbours

/-- In every text, comments left out, an equals sign comes right after each declaration; before each
equals sign stands a declaration or a reserved word in error; and on both sides of each comma stands
an identifier or a reserved word in error. -/
theorem neighbours_belong (text : String) {before after : List Lexeme} {x : Lexeme}
    (h : significant (tokens text) = before ++ x :: after) :
    (x.1 = .declaration → ∃ b ∈ after.head?, b.1 = .declarationOperator) ∧
      (x.1 = .declarationOperator → ∃ a ∈ before.getLast?, IsDeclared a) ∧
      (x.1 = .ruleSeparator →
        (∃ a ∈ before.getLast?, IsRule a) ∧ ∃ b ∈ after.head?, IsRule b) := by
  have hsettled : Settled (significant (tokens text)) := by
    rw [tokens, significant_layOut]
    exact settled_compositional.of_pieces text.toList
  rw [h] at hsettled
  refine ⟨?_, ?_, ?_⟩
  · intro hx
    obtain ⟨b, hb, hfollows⟩ := hsettled.exists_after (.inl hx)
    exact ⟨b, hb, hfollows.sign_after hx⟩
  · intro hx
    obtain ⟨a, ha, hfollows⟩ := hsettled.exists_before (.inl hx)
    exact ⟨a, ha, hfollows.declared_before hx⟩
  · intro hx
    obtain ⟨a, ha, hbefore⟩ := hsettled.exists_before (.inr hx)
    obtain ⟨b, hb, hafter⟩ := hsettled.exists_after (.inr hx)
    exact ⟨⟨a, ha, hbefore.rule_before hx⟩, b, hb, hafter.rule_after hx⟩

/-- Of three commas the first two are kept: a reserved word stands between them. -/
theorem neighbours_belong_reserved :
    significant (tokens "a = \x7b b, /* c */ if, c = , d.") =
        [(.declaration, "a"), (.declarationOperator, "="), (.error, "\x7b"), (.identifier, "b")] ++
          (.ruleSeparator, ",") ::
            [(.error, "if"), (.ruleSeparator, ","), (.identifier, "c"), (.error, "="),
              (.error, ","), (.identifier, "d"), (.declarationSeparator, ".")] ∧
      IsRule (.identifier, "b") ∧ IsRule (.error, "if") := by
  have hsplit : significant (tokens "a = \x7b b, /* c */ if, c = , d.") =
      [(.declaration, "a"), (.declarationOperator, "="), (.error, "\x7b"), (.identifier, "b")] ++
        (.ruleSeparator, ",") ::
          [(.error, "if"), (.ruleSeparator, ","), (.identifier, "c"), (.error, "="),
            (.error, ","), (.identifier, "d"), (.declarationSeparator, ".")] := by
    decide +kernel
  obtain ⟨⟨a, ha, hbefore⟩, b, hb, hafter⟩ := (neighbours_belong _ hsplit).2.2 rfl
  cases ha
  cases hb
  exact ⟨hsplit, hbefore, hafter⟩

end GraphScribe.Program
