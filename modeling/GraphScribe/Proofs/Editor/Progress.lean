import GraphScribe.Proofs.Condition.Joined
import GraphScribe.Proofs.Program.Layout

/-! # Readings come to an end

Every turn of a loop that reads a text leaves the loop or moves on in the text, so the loops end by
themselves and no bound on their turns is ever reached. Blocks in parentheses call for one another,
but none is entered inside as many as may be open: what a reader would do beyond that depth is never
asked. -/
namespace GraphScribe

/-- From the first text the reader has moved on to the second, which is a shorter end of it. -/
def Advances (s t : List Char) : Prop := ∃ run, run ≠ [] ∧ s = run ++ t

theorem Lexis.Reads.advances {κ φ : Type} [DecidableEq κ] [Lexicon κ] {as : Lexis.Recast κ}
    {s t : List Char} {p : Lexis.Piece κ φ} (h : Lexis.Reads as s p t) : Advances s t :=
  ⟨p.run, h.run_ne_nil, h.append.symm⟩

theorem Lexis.Scan.advances {κ φ : Type} [DecidableEq κ] [Lexicon κ] {as : Lexis.Recast κ}
    {s t : List Char} {ps : List (Lexis.Piece κ φ)} (h : Lexis.Scan as s ps t) (hne : ps ≠ []) :
    Advances s t := by
  refine ⟨Lexis.Piece.text ps, ?_, h.append.symm⟩
  intro hnil
  have hlt := h.shorter hne
  rw [← h.append, hnil] at hlt
  exact Nat.lt_irrefl _ hlt

namespace Program

/-- What a loop makes of a text when nothing but its own turns can stop it. -/
inductive Turns (turn : List Char → Option Reading) : List Char → Reading → Prop where
  | leave {s : List Char} : turn s = none → Turns turn s ⟨[], s, 0⟩
  | turn {s : List Char} {r more : Reading} : turn s = some r → Turns turn r.rest more →
      Turns turn s ⟨r.pieces ++ more.pieces, more.rest, r.commands + more.commands⟩

/-- The loop is its turns up to the one that leaves it, and every other one moves on. -/
structure Progresses (turn : List Char → Option Reading) (loop : List Char → Reading) : Prop where
  advances : ∀ s r, turn s = some r → Advances s r.rest
  turns : ∀ s, Turns turn s (loop s)

theorem StepScans.progresses {step : List Char → Option Reading} (h : StepScans step) :
    Progresses step (Reading.many step) where
  advances _ _ hr := (h.scans hr).advances (h.moves hr)
  turns s := Reading.many_induction h (fun _ => .leave) (fun _ _ hr ih => .turn hr ih) s

section Descent

variable {s : List Char}

/-- The block at the front where `depth` blocks are open. Only a parenthesis can be entered, and only
while fewer are open than may be. -/
def descending (depth : Nat) (enter : List Char → List Char → Reading) : BlockReader := fun s =>
  match read? .openParen s with
  | some (paren, rest) =>
    if depth < maxNesting then some (enter paren rest)
    else some ⟨[.fault .nestedTooDeep paren], rest, 0⟩
  | none => block 0 s

/-- A reader of blocks with room for `room` more blocks to be open at once; to enter yet another one
takes it `beyond`. -/
def blockWithin (beyond : List Char → List Char → Reading) : Nat → Nat → BlockReader
  | 0, depth => descending depth beyond
  | room + 1, depth => descending depth (nestedBlock (blockWithin beyond room (depth + 1)))

theorem read?_keyword_of_openParen {cut : Lexis.Cut} (h : read? .openParen s = some cut) :
    read? .keyword s = none := by
  obtain ⟨-, rfl⟩ := (read?_mark rfl).mp h
  exact read?_keyword_of_readName (readName_of_mark (c := .openParen) rfl _)

theorem block_of_no_paren (levels : Nat) (h : read? .openParen s = none) :
    block levels s = block 0 s := by
  rw [block.eq_def, block.eq_def 0, h]

theorem block_zero_of_paren {paren rest : List Char}
    (h : read? .openParen s = some (paren, rest)) :
    block 0 s = some ⟨[.fault .nestedTooDeep paren], rest, 0⟩ := by
  rw [block, read?_keyword_of_openParen h, h]

theorem block_succ_of_paren (levels : Nat) {paren rest : List Char}
    (h : read? .openParen s = some (paren, rest)) :
    block (levels + 1) s = some (nestedBlock (block levels) paren rest) := by
  rw [block, read?_keyword_of_openParen h, h]

theorem descending_full {depth : Nat} (h : maxNesting ≤ depth)
    (enter : List Char → List Char → Reading) : descending depth enter = block 0 := by
  funext s
  rw [descending]
  cases hparen : read? .openParen s with
  | none => rfl
  | some cut =>
    rw [block_zero_of_paren hparen]
    exact if_neg (Nat.not_lt.mpr h)

theorem descending_block {depth : Nat} (h : depth < maxNesting) (levels : Nat) :
    descending depth (nestedBlock (block levels)) = block (levels + 1) := by
  funext s
  rw [descending]
  cases hparen : read? .openParen s with
  | none => exact (block_of_no_paren (levels + 1) hparen).symm
  | some cut =>
    rw [block_succ_of_paren levels hparen]
    exact if_pos h

/-- With room for all blocks that may still be opened, nothing is asked of what is beyond. -/
theorem blockWithin_eq (beyond : List Char → List Char → Reading) {room depth : Nat}
    (h : maxNesting ≤ depth + room) :
    blockWithin beyond room depth = block (maxNesting - depth) := by
  induction room generalizing depth with
  | zero =>
    have hfull : maxNesting ≤ depth := h
    rw [blockWithin, descending_full hfull, Nat.sub_eq_zero_of_le hfull]
  | succ room ih =>
    rw [blockWithin]
    by_cases hdepth : depth < maxNesting
    · rw [ih (by omega), descending_block hdepth]
      congr 1
      omega
    · rw [descending_full (Nat.not_lt.mp hdepth), Nat.sub_eq_zero_of_le (Nat.not_lt.mp hdepth)]

end Descent

end Program

namespace Condition

inductive Turns : Bool → List Char → List Piece → Prop where
  | leave (operandNext : Bool) : Turns operandNext [] []
  | turn {operandNext : Bool} {s : List Char} {step : Step} {ps : List Piece} :
      step? operandNext s = some step → Turns step.operandNext step.rest ps →
      Turns operandNext s (step.piece :: ps)

theorem turns_scan (operandNext : Bool) (s : List Char) :
    Turns operandNext s (scan operandNext s) := by
  induction operandNext, s using scan.induct with
  | case1 operandNext s h =>
    rw [eq_nil_of_step?_none h, scan_nil]
    exact .leave operandNext
  | case2 operandNext s step h _ ih =>
    rw [scan_of_step? h]
    exact .turn h ih

end Condition

open Program in
/-- In a program, every turn of the loops over declarations, commands, stray periods and rules leaves
its loop or moves on, at every depth and up to the end of the text, and never are more than 64 blocks
entered inside one another: whatever the reader does `beyond` them, it reads the same. In a condition
every turn moves on, up to the end of the text. -/
theorem readings_end :
    (∀ levels scope,
      Progresses (declarationStep (block levels) scope) (declarations (block levels) scope) ∧
      Progresses (sequenceStep (block levels) scope) (sequence (block levels) scope) ∧
      Progresses (strayPeriodStep (block levels)) (Reading.many (strayPeriodStep (block levels)))) ∧
    Progresses ruleStep (Reading.many ruleStep) ∧
    (∀ beyond more s, declarations (blockWithin beyond (64 + more) 0) .top s =
      declarations (block maxNesting) .top s) ∧
    (∀ s, (gaps (declarations (block maxNesting) .top s).rest).rest = []) ∧
    (∀ operandNext s step, Condition.step? operandNext s = some step → Advances s step.rest) ∧
    ∀ operandNext s, Condition.Turns operandNext s (Condition.scan operandNext s) := by
  refine ⟨?_, ruleStep_scans.progresses, ?_, program_rest, ?_, Condition.turns_scan⟩
  · intro levels scope
    have hblock := block_scans levels
    exact ⟨(declarationStep_scans hblock).progresses, (sequenceStep_scans hblock).progresses,
      (strayPeriodStep_scans hblock).progresses⟩
  · intro beyond more s
    have hroom : maxNesting ≤ 0 + (64 + more) := by
      rw [maxNesting]
      omega
    rw [blockWithin_eq beyond hroom]
    rfl
  · intro operandNext s step hstep
    exact (Condition.reads_step hstep).advances

open Program in
/-- Room for one block less is not enough. -/
example : (declarations (blockWithin (fun _ rest => ⟨[], rest, 0⟩) 63 0) .top
      ("m=".toList ++ List.replicate 64 '(')).pieces.length ≠
    (declarations (block maxNesting) .top ("m=".toList ++ List.replicate 64 '(')).pieces.length := by
  decide +kernel

end GraphScribe
