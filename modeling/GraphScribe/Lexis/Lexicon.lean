import GraphScribe.Lexis.Pattern
import GraphScribe.Style.StyleClass

/-!
# Lexicons

The token categories of a language: how each is named and drawn, and, in the order in which they
are tried, the patterns of those that can be read off a text. Categories that are only assigned
after reading, such as the error category, have no pattern.
-/
namespace GraphScribe

open Lexis (Pattern Cut)

class Lexicon (κ : Type) where
  comment : κ
  error : κ
  all : List κ
  name : κ → String
  styleClass : κ → StyleClass
  table : List (κ × Pattern)

namespace Lexicon

variable {κ : Type} [DecidableEq κ] [Lexicon κ]

def pattern? (c : κ) : Option Pattern := (table.find? fun e => e.1 = c).map (·.2)

def read? (c : κ) (s : List Char) : Option Cut := (pattern? c).bind (·.read s)

/-- The first category of the table that is accepted and can be read. -/
def readAny? (accept : κ → Bool) (s : List Char) : Option (κ × Cut) :=
  table.findSome? fun e => if accept e.1 then (e.2.read s).map (e.1, ·) else none

theorem read?_append {c : κ} {s : List Char} {cut : Cut} (h : read? c s = some cut) :
    cut.1 ++ cut.2 = s := by
  obtain ⟨p, _, hp⟩ := Option.bind_eq_some_iff.mp h
  exact Pattern.read_append hp

theorem read?_ne_nil {c : κ} {s : List Char} {cut : Cut} (h : read? c s = some cut) :
    cut.1 ≠ [] := by
  obtain ⟨p, _, hp⟩ := Option.bind_eq_some_iff.mp h
  exact Pattern.read_ne_nil hp

theorem read?_shorter {c : κ} {s : List Char} {cut : Cut} (h : read? c s = some cut) :
    cut.2.length < s.length := by
  obtain ⟨p, _, hp⟩ := Option.bind_eq_some_iff.mp h
  exact Pattern.read_shorter hp

omit [DecidableEq κ] in
theorem readAny?_eq_some {accept : κ → Bool} {s : List Char} {r : κ × Cut}
    (h : readAny? accept s = some r) :
    ∃ p, (r.1, p) ∈ table ∧ accept r.1 ∧ p.read s = some r.2 := by
  obtain ⟨⟨c, p⟩, hm, hr⟩ := List.exists_of_findSome?_eq_some h
  split at hr
  · rename_i ha
    obtain ⟨cut, hc, rfl⟩ := Option.map_eq_some_iff.mp hr
    exact ⟨p, hm, ha, hc⟩
  · cases hr

omit [DecidableEq κ] in
theorem readAny?_shorter {accept : κ → Bool} {s : List Char} {r : κ × Cut}
    (h : readAny? accept s = some r) : r.2.2.length < s.length := by
  obtain ⟨p, _, _, hp⟩ := readAny?_eq_some h
  exact Pattern.read_shorter hp

end Lexicon

end GraphScribe
