import GraphScribe.Condition.Reading
import GraphScribe.Proofs.Lexis.Scan
import Mathlib.Data.List.Forall2

/-! # The scan of a condition text

A condition is read in one pass that takes a piece at every step and stops only at the end of the
text. Pairing the parentheses afterwards changes what a piece counts as, never its text. -/
namespace GraphScribe.Condition

open Lexis (Reads Scan gap?)

/-- Every token keeps the category that it was recognised as. -/
def recast : Lexis.Recast Category := fun k c _ _ => k = c

theorem reads_token {c : Category} {s : List Char} {cut : Lexis.Cut}
    (hs : gap? (κ := Category) (φ := Fault) s = none) (h : read? c s = some cut) :
    Reads recast s (.token c cut.1 : Piece) cut.2 := by
  refine Reads.token hs h rfl ?_ ?_
  · rintro rfl; cases h
  · rintro rfl; cases h

/-- Each category has one pattern, so trying the patterns in order reads what the category says. -/
theorem read?_of_readAny? {accept : Category → Bool} {s : List Char}
    {r : Category × Lexis.Cut} (h : Lexicon.readAny? accept s = some r) :
    read? r.1 s = some r.2 := by
  obtain ⟨c, cut⟩ := r
  obtain ⟨p, hp, _, hr⟩ := Lexicon.readAny?_eq_some h
  simp only [Lexicon.table, List.mem_cons, Prod.mk.injEq, List.not_mem_nil, or_false] at hp
  rcases hp with ⟨rfl, rfl⟩ | ⟨rfl, rfl⟩ | ⟨rfl, rfl⟩ | ⟨rfl, rfl⟩ | ⟨rfl, rfl⟩ | ⟨rfl, rfl⟩ |
    ⟨rfl, rfl⟩ | ⟨rfl, rfl⟩ | ⟨rfl, rfl⟩ <;> exact hr

theorem reads_lexeme {operandNext : Bool} {s : List Char} {step : Step}
    (hs : gap? (κ := Category) (φ := Fault) s = none)
    (h : lexeme? operandNext s = some step) : Reads recast s step.piece step.rest := by
  unfold lexeme? at h
  split at h
  · rename_i hr
    cases h
    exact .marked hs hr
  split at h
  · rename_i hr
    cases h
    exact reads_token hs hr
  split at h
  · rename_i hr
    cases h
    exact reads_token hs hr
  obtain ⟨r, hr, rfl⟩ := Option.map_eq_some_iff.mp h
  exact reads_token hs (read?_of_readAny? hr)

theorem reads_step {operandNext : Bool} {s : List Char} {step : Step}
    (h : step? operandNext s = some step) : Reads recast s step.piece step.rest := by
  unfold step? at h
  split at h
  · rename_i hg
    cases h
    exact .gap hg
  · rename_i hs
    split at h
    · rename_i hl
      cases h
      exact reads_lexeme hs hl
    · obtain ⟨c, hc, rfl⟩ := Option.map_eq_some_iff.mp h
      exact .stray hs hc

theorem eq_nil_of_step?_none {operandNext : Bool} {s : List Char}
    (h : step? operandNext s = none) : s = [] := by
  cases s with
  | nil => rfl
  | cons c s =>
    unfold step? at h
    split at h
    · cases h
    · split at h
      · cases h
      · simp [Lexis.readStray] at h

theorem scans_scan (operandNext : Bool) (s : List Char) :
    Scan recast s (scan operandNext s) [] := by
  induction operandNext, s using scan.induct with
  | case1 operandNext s h =>
    have hs := eq_nil_of_step?_none h
    subst hs
    rw [scan]
    split
    · exact .nil []
    · rename_i step hstep
      rw [h] at hstep
      cases hstep
  | case2 operandNext s step h _ ih =>
    rw [scan]
    split
    · rename_i hnone
      rw [h] at hnone
      cases hnone
    · rename_i step' h'
      rw [h] at h'
      cases h'
      exact .cons (reads_step h) ih

inductive Marked : Piece → Piece → Prop where
  | keep (p) : Marked p p
  | strayClose (run) : Marked (.token .closeParen run) (.fault .strayClose run)
  | unclosed (run) : Marked (.token .openParen run) (.fault .unclosedParen run)

theorem markStrayCloses_marked (depth : Nat) (ps : List Piece) :
    List.Forall₂ Marked ps (markStrayCloses depth ps) := by
  induction depth, ps using markStrayCloses.induct with
  | case1 => exact .nil
  | case2 depth run ps ih => exact .cons (.keep _) ih
  | case3 run ps ih => exact .cons (.strayClose run) ih
  | case4 depth run ps ih => exact .cons (.keep _) ih
  | case5 depth p ps hopen hzero hsucc ih =>
    rw [markStrayCloses]
    · exact .cons (.keep _) ih
    all_goals assumption

theorem markUnclosed_marked (ps : List Piece) :
    List.Forall₂ Marked ps (markUnclosed ps).2 := by
  induction ps with
  | nil => exact .nil
  | cons p ps ih =>
    unfold markUnclosed
    split
    · rename_i heq
      cases heq
    · rename_i run qs heq
      cases heq
      exact .cons (.keep _) ih
    · rename_i run qs heq
      cases heq
      split
      · rename_i marked hm
        rw [hm] at ih
        exact .cons (.unclosed run) ih
      · rename_i free marked hm
        rw [hm] at ih
        exact .cons (.keep _) ih
    · rename_i q qs _ _ heq
      cases heq
      exact .cons (.keep _) ih

theorem Marked.reads {s t : List Char} {p q : Piece} (h : Reads recast s p t)
    (hm : Marked p q) : Reads recast s q t := by
  cases hm with
  | keep => exact h
  | strayClose run => exact h.mark _ (by decide)
  | unclosed run => exact h.mark _ (by decide)

theorem Marked.scan {s u : List Char} {ps qs : List Piece} (h : Scan recast s ps u)
    (hm : List.Forall₂ Marked ps qs) : Scan recast s qs u := by
  induction h generalizing qs with
  | nil => cases hm; exact .nil _
  | cons hp _ ih =>
    cases hm with
    | cons hq hqs => exact .cons (hq.reads hp) (ih hqs)

theorem scan_pieces (s : List Char) : Scan recast s (pieces s) [] :=
  Marked.scan (Marked.scan (scans_scan true s) (markStrayCloses_marked 0 _)) (markUnclosed_marked _)

end GraphScribe.Condition
