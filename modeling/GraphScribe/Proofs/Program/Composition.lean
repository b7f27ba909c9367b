import GraphScribe.Proofs.Program.Scan

/-! # What a reading is put together from

Every reading of a program strings together gaps, tokens and faults that stand on their own, the
heads of declarations, and lists of rules. A property of all these parts that is kept when two
stretches of pieces are set one after the other is therefore a property of the pieces of every text,
however malformed. -/
namespace GraphScribe.Program

/-- A token of the category stands on its own in a reading. -/
def Category.Loose (c : Category) : Prop :=
  c ≠ .declaration ∧ c ≠ .declarationOperator ∧ c ≠ .ruleSeparator

instance (c : Category) : Decidable c.Loose := inferInstanceAs (Decidable (_ ∧ _ ∧ _))

/-- `P` holds of the parts of a reading and is kept when they are strung together. -/
structure Compositional (P : List Piece → Prop) : Prop where
  gap : ∀ {ps : List Piece}, (∀ p ∈ ps, p.IsGap) → P ps
  token : ∀ {c : Category} (r : List Char), c.Loose → P [.token c r]
  fault : ∀ (f : Fault) (r : List Char), P [.fault f r]
  head : ∀ name s, P (declarationHead name s).1.pieces
  rules : ∀ s, P (Reading.many ruleStep s).pieces
  append : ∀ {ps qs : List Piece}, P ps → P qs → P (ps ++ qs)

structure Compositional.OfBlocks (P : List Piece → Prop) (block : BlockReader) : Prop where
  scans : StepScans block
  pieces : ∀ {s r}, block s = some r → P r.pieces

namespace Compositional

variable {P : List Piece → Prop} (hP : Compositional P)
include hP

theorem nil : P [] := hP.gap (List.forall_mem_nil _)

theorem of_gaps (s : List Char) : P (gaps s).pieces := hP.gap (Lexis.isGap_of_mem_gaps s)

theorem past_gap {ps : List Piece} {s : List Char} (h : P ps) : P ((gaps s).pieces ++ ps) :=
  hP.append (hP.of_gaps s) h

theorem cons_token {c : Category} {r : List Char} {ps : List Piece} (hc : c.Loose) (h : P ps) :
    P (.token c r :: ps) := hP.append (hP.token r hc) h

theorem cons_fault {f : Fault} {r : List Char} {ps : List Piece} (h : P ps) :
    P (.fault f r :: ps) := hP.append (hP.fault f r) h

theorem marked {c : Category} {f : Fault} {r : List Char} {b : Prop} [Decidable b] (hc : c.Loose) :
    P [if b then .fault f r else .token c r] := by
  split
  · exact hP.fault f r
  · exact hP.token r hc

theorem of_recover (e : Expectation) (s : List Char) : P (recover e s).pieces := by
  rw [recover]
  split
  · exact hP.fault _ _
  · exact hP.nil

theorem of_many {step : List Char → Option Reading} (hs : StepScans step)
    (h : ∀ {s r}, step s = some r → P r.pieces) (s : List Char) :
    P (Reading.many step s).pieces := by
  refine Reading.many_induction hs (P := fun _ r => P r.pieces) ?_ ?_ s
  · exact fun _ _ => hP.nil
  · exact fun _ _ hr ih => hP.append (h hr) ih

section Productions

variable {block : BlockReader} {scope : Scope} (hb : OfBlocks P block)
include hb

theorem of_blockPast {s : List Char} {r : Reading} (h : blockPast block s = some r) :
    P r.pieces := by
  obtain ⟨r', hr, rfl⟩ := Option.map_eq_some_iff.mp h
  exact hP.past_gap (hb.pieces hr)

theorem of_clause (word : List Char) (missing : Fault) (s : List Char) :
    P (clause block word missing s).pieces := by
  rw [clause]
  split
  · rename_i body hbody
    exact hP.cons_token (by decide) (hP.of_blockPast hb hbody)
  · exact hP.fault _ _

theorem of_elseBranch (s : List Char) : P (elseBranch block s).pieces := by
  rw [elseBranch]
  split
  · rename_i g w t h
    obtain ⟨rfl, -⟩ := keywordPast_eq_some h
    exact hP.past_gap (hP.of_clause hb w _ t)
  · exact hP.nil

theorem of_thenBranch (word s : List Char) : P (thenBranch block word s).pieces := by
  rw [thenBranch]
  split
  · rename_i body hbody
    have hboth : P (body.pieces ++ (elseBranch block body.rest).pieces) :=
      hP.append (hP.of_blockPast hb hbody) (hP.of_elseBranch hb _)
    exact hP.cons_token (by decide) hboth
  · exact hP.fault _ _

theorem of_then {s t w : List Char} {ps g : List Piece} (h : P ps)
    (hk : keywordPast "then" s = some (g, w, t)) :
    P ((thenBranch block w t).after (ps ++ g)).pieces := by
  obtain ⟨rfl, -⟩ := keywordPast_eq_some hk
  exact hP.append (hP.append h (hP.of_gaps s)) (hP.of_thenBranch hb w t)

theorem of_conditional (word s : List Char) : P (conditional block word s).pieces := by
  rw [conditional]
  split
  · rename_i condition hc
    have hcondition := hP.of_blockPast hb hc
    split
    · rename_i g next rest hk
      exact hP.of_then hb (hP.cons_token (by decide) hcondition) hk
    · exact hP.cons_fault hcondition
  · exact hP.fault _ _

theorem of_attempt (word s : List Char) : P (attempt block word s).pieces := by
  rw [attempt]
  split
  · rename_i body hbody
    have hbody := hP.of_blockPast hb hbody
    split
    · rename_i g next rest hk
      exact hP.of_then hb (hP.cons_token (by decide) hbody) hk
    · exact hP.cons_token (by decide) hbody
  · exact hP.fault _ _

theorem of_blockTail (s : List Char) : P (blockTail block s).pieces := by
  rw [blockTail]
  split
  · exact hP.past_gap (hP.token _ (by decide))
  · split
    · exact hP.past_gap (hP.of_clause hb _ _ _)
    · exact hP.nil

theorem of_command (s : List Char) : P (command block s).pieces := by
  rw [command]
  split
  · exact hP.of_conditional hb _ _
  · split
    · exact hP.of_attempt hb _ _
    · split
      · rename_i first h
        exact hP.append (hb.pieces h) (hP.of_blockTail hb _)
      · exact hP.of_recover _ s

omit hb in
theorem of_commandEnd (s : List Char) : P (commandEnd s).pieces := by
  rw [commandEnd]
  dsimp only
  split
  · exact hP.past_gap (hP.marked (by decide))
  · split
    · exact hP.nil
    · exact hP.past_gap (hP.of_recover _ _)

theorem of_sequenceStep {s : List Char} {r : Reading} (h : sequenceStep block scope s = some r) :
    P r.pieces := by
  rw [sequenceStep] at h
  dsimp only at h
  split at h
  · cases h
  · split at h
    · split at h
      · cases h
      · cases h
        exact hP.past_gap (hP.fault _ _)
    · split at h
      · cases h
        exact hP.past_gap (hP.fault _ _)
      · cases h
        exact hP.past_gap (hP.append (hP.of_command hb _) (hP.of_commandEnd _))

theorem of_sequence (s : List Char) : P (sequence block scope s).pieces :=
  hP.of_many (sequenceStep_scans hb.scans) (hP.of_sequenceStep hb) s

omit hb in
theorem of_declarationEnd (name : List Char) (hasSign : Bool) (commands : Nat) (s : List Char) :
    P (declarationEnd name hasSign commands s).pieces := by
  rw [declarationEnd]
  dsimp only
  split
  · exact hP.past_gap (hP.marked (by decide))
  · exact hP.nil

theorem of_declaration (s : List Char) : P (declaration block scope s).pieces := by
  rw [declaration]
  split
  · exact hP.of_recover _ s
  · exact hP.append (hP.append (hP.head _ _) (hP.of_sequence hb _)) (hP.of_declarationEnd _ _ _ _)

theorem of_declarationStep {s : List Char} {r : Reading}
    (h : declarationStep block scope s = some r) : P r.pieces := by
  have hdeclaration : P ((gaps s).pieces ++ (declaration block scope (gaps s).rest).pieces) :=
    hP.past_gap (hP.of_declaration hb _)
  rw [declarationStep.eq_def] at h
  dsimp only at h
  split at h
  · cases h
  · split at h
    · cases h
    · cases h
      exact hP.past_gap (hP.fault _ _)
    · split at h
      · cases h
        exact hdeclaration
      · cases h
    · cases h
      exact hdeclaration

theorem of_declarations (s : List Char) : P (declarations block scope s).pieces :=
  hP.of_many (declarationStep_scans hb.scans) (hP.of_declarationStep hb) s

theorem of_strayPeriodStep {s : List Char} {r : Reading} (h : strayPeriodStep block s = some r) :
    P r.pieces := by
  rw [strayPeriodStep] at h
  dsimp only at h
  split at h
  · cases h
  · split at h
    · cases h
    · cases h
      exact hP.append (hP.past_gap (hP.fault _ _)) (hP.of_sequence hb _)

theorem of_blockBody (s : List Char) : P (blockBody block s).pieces := by
  rw [blockBody]
  dsimp only
  refine hP.append (hP.append ?_ (hP.of_sequence hb _))
    (hP.of_many (strayPeriodStep_scans hb.scans) (hP.of_strayPeriodStep hb) _)
  split
  · exact hP.of_declarations hb s
  · exact hP.nil

theorem of_nestedBlock (paren s : List Char) : P (nestedBlock block paren s).pieces := by
  have hbody := hP.of_blockBody hb s
  rw [nestedBlock]
  dsimp only
  split
  · have hopen : P (.token .openParen paren :: (blockBody block s).pieces ++
        (gaps (blockBody block s).rest).pieces) :=
      hP.append (hP.cons_token (by decide) hbody) (hP.of_gaps _)
    exact hP.append hopen (hP.marked (by decide))
  · exact hP.cons_fault hbody

omit hb in
theorem of_ruleSet (brace s : List Char) : P (ruleSet brace s).pieces := by
  have hrules := hP.rules s
  rw [ruleSet]
  split
  · have hopen : P (.token .openBrace brace :: (Reading.many ruleStep s).pieces ++
        (gaps (Reading.many ruleStep s).rest).pieces) :=
      hP.append (hP.cons_token (by decide) hrules) (hP.of_gaps _)
    exact hP.append hopen (hP.token _ (by decide))
  · exact hP.cons_fault hrules

omit hb in
theorem of_wordBlock {word s : List Char} {r : Reading} (h : wordBlock word s = some r) :
    P r.pieces := by
  rw [wordBlock] at h
  split at h
  · cases h
    exact hP.token _ (by decide)
  · split at h
    · cases h
      exact hP.fault _ _
    · cases h

end Productions

theorem ofBlocks_over {levels : Nat} (hn : ∀ n, levels = n + 1 → OfBlocks P (block n)) :
    OfBlocks P (block levels) where
  scans := block_scans levels
  pieces := by
    intro s r h
    rw [block.eq_def] at h
    split at h
    · exact hP.of_wordBlock h
    · split at h
      · cases levels with
        | zero =>
          cases h
          exact hP.fault _ _
        | succ n =>
          cases h
          exact hP.of_nestedBlock (hn n rfl) _ _
      · split at h
        · cases h
          exact hP.of_ruleSet _ _
        · split at h
          · cases h
            exact hP.token _ (by decide)
          · cases h

theorem ofBlocks (levels : Nat) : OfBlocks P (block levels) := by
  induction levels with
  | zero => exact hP.ofBlocks_over (fun n h => absurd h (Nat.succ_ne_zero n).symm)
  | succ n ih =>
    apply hP.ofBlocks_over
    rintro m hm
    cases hm
    exact ih

/-- What holds of the parts holds of the pieces of every text. -/
theorem of_pieces (s : List Char) : P (pieces s) :=
  hP.append (hP.of_declarations (hP.ofBlocks maxNesting) s) (hP.of_gaps _)

end Compositional

end GraphScribe.Program
