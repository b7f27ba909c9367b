import GraphScribe.Proofs.Program.Descriptions
import GraphScribe.Proofs.Program.Scan

/-! # Brackets

Whatever a program text leaves open or closes once too often, the parentheses and braces that are
kept are properly nested. A bracket that lacks its partner, and a parenthesis beyond the deepest
level, becomes a fault when the reader finds that out, with all that it encloses already read. -/
namespace GraphScribe.Program

inductive Bracket where
  | openParen
  | closeParen
  | openBrace
  | closeBrace
  deriving DecidableEq, Repr

/-- A parenthesis in error that closes a block without commands. -/
def ClosesEmpty (t : Token Category) : Prop :=
  t.category = .error ∧ t.text = ")" ∧
    ∃ d ∈ t.description, "Empty block".toList <+: d.toList

instance (t : Token Category) : Decidable (ClosesEmpty t) :=
  inferInstanceAs (Decidable (_ ∧ _ ∧ ∃ d ∈ _, _))

def bracket? (t : Token Category) : Option Bracket :=
  match t.category with
  | .openParen => some .openParen
  | .closeParen => some .closeParen
  | .openBrace => some .openBrace
  | .closeBrace => some .closeBrace
  | _ => if ClosesEmpty t then some .closeParen else none

/-- Every bracket has its partner, and no pair crosses another. -/
inductive WellNested : List Bracket → Prop where
  | nil : WellNested []
  | parens {w v : List Bracket} : WellNested w → WellNested v →
      WellNested (.openParen :: (w ++ .closeParen :: v))
  | braces {w v : List Bracket} : WellNested w → WellNested v →
      WellNested (.openBrace :: (w ++ .closeBrace :: v))

def bracketOf? : Piece → Option Bracket
  | .token .openParen _ => some .openParen
  | .token .closeParen _ => some .closeParen
  | .token .openBrace _ => some .openBrace
  | .token .closeBrace _ => some .closeBrace
  | .fault .emptyBlock r => if r = [')'] then some .closeParen else none
  | _ => none

/-- What can stand between the braces of a rule set. -/
def InRuleSet : Piece → Prop
  | .blank _ => True
  | .token c _ => c = .identifier ∨ c = .ruleSeparator ∨ c = .comment
  | .fault f _ => f ≠ .emptyBlock

/-- The brackets of the pieces are nested, with at most `n` parentheses inside one another, and
between braces there are only rule names, commas, comments and faults. -/
inductive Bracketed : Nat → List Piece → Prop where
  | nil {n : Nat} : Bracketed n []
  | plain {n : Nat} {p : Piece} {ps : List Piece} : bracketOf? p = none → Bracketed n ps →
      Bracketed n (p :: ps)
  | ruleSet {n : Nat} {r r' : List Char} {inner ps : List Piece} : (∀ p ∈ inner, InRuleSet p) →
      Bracketed n ps → Bracketed n (.token .openBrace r :: (inner ++ .token .closeBrace r' :: ps))
  | block {n : Nat} {r : List Char} {close : Piece} {inner ps : List Piece} : Bracketed n inner →
      bracketOf? close = some .closeParen → Bracketed (n + 1) ps →
      Bracketed (n + 1) (.token .openParen r :: (inner ++ close :: ps))

theorem InRuleSet.plain {p : Piece} (h : InRuleSet p) : bracketOf? p = none := by
  cases p with
  | blank => rfl
  | token c r => rcases h with rfl | rfl | rfl <;> rfl
  | fault f r => cases f <;> first | rfl | exact absurd rfl h

section Bracketed

variable {n : Nat} {ps qs : List Piece}

theorem Bracketed.append (h : Bracketed n ps) (k : Bracketed n qs) : Bracketed n (ps ++ qs) := by
  induction h with
  | nil => exact k
  | plain hp _ ih => exact .plain hp (ih k)
  | ruleSet hinner _ ih =>
    rw [List.cons_append, List.append_assoc, List.cons_append]
    exact .ruleSet hinner (ih k)
  | block hinner hclose _ _ ih =>
    rw [List.cons_append, List.append_assoc, List.cons_append]
    exact .block hinner hclose (ih k)

theorem Bracketed.mono (h : Bracketed n ps) : Bracketed (n + 1) ps := by
  induction h with
  | nil => exact .nil
  | plain hp _ ih => exact .plain hp ih
  | ruleSet hinner _ ih => exact .ruleSet hinner ih
  | block _ hclose _ ihinner ih => exact .block ihinner hclose ih

theorem Bracketed.single {p : Piece} (h : bracketOf? p = none) : Bracketed n [p] := .plain h .nil

theorem bracketed_of_plain (h : ∀ p ∈ ps, bracketOf? p = none) : Bracketed n ps := by
  induction ps with
  | nil => exact .nil
  | cons p ps ih =>
    obtain ⟨hp, hps⟩ := List.forall_mem_cons.mp h
    exact .plain hp (ih hps)

theorem plain_of_isGap {p : Piece} (h : p.IsGap) : InRuleSet p := by
  cases p with
  | blank => trivial
  | token c r => exact .inr (.inr h)
  | fault => exact h.elim

theorem gaps_inRuleSet (s : List Char) : ∀ p ∈ (gaps s).pieces, InRuleSet p :=
  fun p hp => plain_of_isGap (Lexis.isGap_of_mem_gaps s p hp)

theorem bracketed_gaps (s : List Char) : Bracketed n (gaps s).pieces :=
  bracketed_of_plain fun p hp => (gaps_inRuleSet s p hp).plain

theorem Bracketed.past_gap {s : List Char} (h : Bracketed n ps) :
    Bracketed n ((gaps s).pieces ++ ps) := (bracketed_gaps s).append h

theorem recover_inRuleSet (e : Expectation) (s : List Char) :
    ∀ p ∈ (recover e s).pieces, InRuleSet p := by
  rw [recover]
  split
  · exact List.forall_mem_singleton.mpr (by rintro ⟨⟩)
  · exact List.forall_mem_nil _

theorem bracketed_recover (e : Expectation) (s : List Char) : Bracketed n (recover e s).pieces :=
  bracketed_of_plain fun p hp => (recover_inRuleSet e s p hp).plain

end Bracketed

section Productions

variable {n : Nat} {block : BlockReader} {scope : Scope}

def BlockBracketed (n : Nat) (block : BlockReader) : Prop :=
  ∀ {s r}, block s = some r → Bracketed n r.pieces

variable (hb : BlockBracketed n block)
include hb

theorem bracketed_blockPast {s : List Char} {r : Reading} (h : blockPast block s = some r) :
    Bracketed n r.pieces := by
  obtain ⟨r', hr, rfl⟩ := Option.map_eq_some_iff.mp h
  exact (hb hr).past_gap

theorem bracketed_clause {missing : Fault} (hm : missing ≠ .emptyBlock) (word s : List Char) :
    Bracketed n (clause block word missing s).pieces := by
  rw [clause]
  split
  · rename_i body hbody
    exact .plain rfl (bracketed_blockPast hb hbody)
  · apply Bracketed.single
    cases missing <;> first | rfl | exact absurd rfl hm

theorem bracketed_elseBranch (s : List Char) : Bracketed n (elseBranch block s).pieces := by
  rw [elseBranch]
  split
  · rename_i g w t h
    obtain ⟨rfl, -⟩ := keywordPast_eq_some h
    exact (bracketed_clause hb (by decide) w t).past_gap
  · exact .nil

theorem bracketed_thenBranch (word s : List Char) :
    Bracketed n (thenBranch block word s).pieces := by
  rw [thenBranch]
  split
  · rename_i body hbody
    exact .plain rfl ((bracketed_blockPast hb hbody).append (bracketed_elseBranch hb _))
  · exact .single rfl

theorem bracketed_then {s t w : List Char} {p : Piece} {ps g : List Piece}
    (hp : bracketOf? p = none) (h : Bracketed n ps) (hk : keywordPast "then" s = some (g, w, t)) :
    Bracketed n ((thenBranch block w t).after (p :: ps ++ g)).pieces := by
  obtain ⟨rfl, -⟩ := keywordPast_eq_some hk
  exact (Bracketed.plain hp (h.append (bracketed_gaps s))).append (bracketed_thenBranch hb w t)

theorem bracketed_conditional (word s : List Char) :
    Bracketed n (conditional block word s).pieces := by
  rw [conditional]
  split
  · rename_i condition hc
    have hcondition := bracketed_blockPast hb hc
    split
    · rename_i g next rest hk
      exact bracketed_then hb rfl hcondition hk
    · exact .plain rfl hcondition
  · exact .single rfl

theorem bracketed_attempt (word s : List Char) : Bracketed n (attempt block word s).pieces := by
  rw [attempt]
  split
  · rename_i body hbody
    have hbody := bracketed_blockPast hb hbody
    split
    · rename_i g next rest hk
      exact bracketed_then hb rfl hbody hk
    · exact .plain rfl hbody
  · exact .single rfl

theorem bracketed_blockTail (s : List Char) : Bracketed n (blockTail block s).pieces := by
  rw [blockTail]
  split
  · exact (Bracketed.single rfl).past_gap
  · split
    · exact (bracketed_clause hb (by decide) _ _).past_gap
    · exact .nil

theorem bracketed_command (s : List Char) : Bracketed n (command block s).pieces := by
  rw [command]
  split
  · exact bracketed_conditional hb _ _
  · split
    · exact bracketed_attempt hb _ _
    · split
      · rename_i first h
        exact (hb h).append (bracketed_blockTail hb _)
      · exact bracketed_recover _ s

omit hb in
theorem bracketed_commandEnd (s : List Char) : Bracketed n (commandEnd s).pieces := by
  rw [commandEnd]
  dsimp only
  split
  · apply Bracketed.past_gap
    split
    · exact .single rfl
    · exact .single rfl
  · split
    · exact .nil
    · exact (bracketed_recover _ _).past_gap

theorem bracketed_sequenceStep {s : List Char} {r : Reading}
    (h : sequenceStep block scope s = some r) : Bracketed n r.pieces := by
  rw [sequenceStep] at h
  dsimp only at h
  split at h
  · cases h
  · split at h
    · split at h
      · cases h
      · cases h
        exact (Bracketed.single rfl).past_gap
    · split at h
      · cases h
        exact (Bracketed.single rfl).past_gap
      · cases h
        exact ((bracketed_command hb _).append (bracketed_commandEnd _)).past_gap

omit hb in
theorem bracketed_many {step : List Char → Option Reading} (hs : StepScans step)
    (h : ∀ {s r}, step s = some r → Bracketed n r.pieces) (s : List Char) :
    Bracketed n (Reading.many step s).pieces := by
  refine Reading.many_induction hs (P := fun _ r => Bracketed n r.pieces) ?_ ?_ s
  · exact fun _ _ => .nil
  · exact fun _ _ hr ih => (h hr).append ih

variable (hs : StepScans block)
include hs

theorem bracketed_sequence (s : List Char) : Bracketed n (sequence block scope s).pieces :=
  bracketed_many (sequenceStep_scans hs) (bracketed_sequenceStep hb) s

omit hb hs in
theorem bracketed_declarationHead (name s : List Char) :
    Bracketed n (declarationHead name s).1.pieces := by
  rw [declarationHead]
  dsimp only
  split
  · have hsign : ∀ {sign : List Char}, Bracketed n
        ((gaps s).pieces ++ [(.token .declarationOperator sign : Piece)]) :=
      (Bracketed.single rfl).past_gap
    split
    · exact .plain rfl hsign
    · exact .plain rfl hsign
  · exact .single rfl

omit hb hs in
theorem bracketed_declarationEnd (name : List Char) (hasSign : Bool) (commands : Nat)
    (s : List Char) : Bracketed n (declarationEnd name hasSign commands s).pieces := by
  rw [declarationEnd]
  dsimp only
  split
  · apply Bracketed.past_gap
    split
    · exact .single rfl
    · exact .single rfl
  · exact .nil

theorem bracketed_declaration (s : List Char) :
    Bracketed n (declaration block scope s).pieces := by
  rw [declaration]
  split
  · exact bracketed_recover _ s
  · exact ((bracketed_declarationHead _ _).append (bracketed_sequence hb hs _)).append
      (bracketed_declarationEnd _ _ _ _)

theorem bracketed_declarationStep {s : List Char} {r : Reading}
    (h : declarationStep block scope s = some r) : Bracketed n r.pieces := by
  have hdeclaration :
      Bracketed n ((gaps s).pieces ++ (declaration block scope (gaps s).rest).pieces) :=
    (bracketed_declaration hb hs _).past_gap
  rw [declarationStep.eq_def] at h
  dsimp only at h
  split at h
  · cases h
  · split at h
    · cases h
    · cases h
      exact (Bracketed.single rfl).past_gap
    · split at h
      · cases h
        exact hdeclaration
      · cases h
    · cases h
      exact hdeclaration

theorem bracketed_declarations (s : List Char) :
    Bracketed n (declarations block scope s).pieces :=
  bracketed_many (declarationStep_scans hs) (bracketed_declarationStep hb hs) s

theorem bracketed_strayPeriodStep {s : List Char} {r : Reading}
    (h : strayPeriodStep block s = some r) : Bracketed n r.pieces := by
  rw [strayPeriodStep] at h
  dsimp only at h
  split at h
  · cases h
  · split at h
    · cases h
    · cases h
      exact ((Bracketed.single rfl).past_gap).append (bracketed_sequence hb hs _)

theorem bracketed_blockBody (s : List Char) : Bracketed n (blockBody block s).pieces := by
  rw [blockBody]
  dsimp only
  refine Bracketed.append (Bracketed.append ?_ (bracketed_sequence hb hs _))
    (bracketed_many (strayPeriodStep_scans hs) (bracketed_strayPeriodStep hb hs) _)
  split
  · exact bracketed_declarations hb hs s
  · exact .nil

theorem bracketed_nestedBlock (paren s : List Char) :
    Bracketed (n + 1) (nestedBlock block paren s).pieces := by
  have hbody := bracketed_blockBody hb hs s
  rw [nestedBlock]
  dsimp only
  split
  · rename_i close rest hc
    obtain ⟨rfl, -⟩ := (read?_mark rfl).mp hc
    have hinner := hbody.append (bracketed_gaps (blockBody block s).rest)
    split
    · exact .block hinner rfl .nil
    · exact .block hinner rfl .nil
  · exact .plain rfl hbody.mono

omit hb hs in
theorem ruleEnd_inRuleSet (s : List Char) : ∀ p ∈ (ruleEnd s).pieces, InRuleSet p := by
  rw [ruleEnd]
  dsimp only
  split
  · apply List.forall_mem_append.mpr ⟨gaps_inRuleSet s, List.forall_mem_singleton.mpr ?_⟩
    split
    · exact .inr (.inl rfl)
    · rintro ⟨⟩
  · split
    · exact List.forall_mem_nil _
    · exact List.forall_mem_append.mpr ⟨gaps_inRuleSet s, recover_inRuleSet _ _⟩

omit hb hs in
theorem ruleStep_inRuleSet {s : List Char} {r : Reading} (h : ruleStep s = some r) :
    ∀ p ∈ r.pieces, InRuleSet p := by
  rw [ruleStep] at h
  dsimp only at h
  split at h
  · cases h
  · split at h
    · cases h
      exact List.forall_mem_append.mpr ⟨gaps_inRuleSet s, recover_inRuleSet _ _⟩
    · rename_i name rest _
      cases h
      have hname : InRuleSet (if isReserved (String.ofList name) then
          .fault (.reservedRule (String.ofList name)) name else .token .identifier name) := by
        split
        · rintro ⟨⟩
        · exact .inl rfl
      exact List.forall_mem_append.mpr ⟨List.forall_mem_append.mpr ⟨gaps_inRuleSet s,
        List.forall_mem_singleton.mpr hname⟩, ruleEnd_inRuleSet _⟩

omit hb hs in
theorem rules_inRuleSet (s : List Char) :
    ∀ p ∈ (Reading.many ruleStep s).pieces, InRuleSet p := by
  refine Reading.many_induction ruleStep_scans (P := fun _ r => ∀ p ∈ r.pieces, InRuleSet p) ?_ ?_ s
  · exact fun _ _ => List.forall_mem_nil _
  · exact fun _ _ hr ih => List.forall_mem_append.mpr ⟨ruleStep_inRuleSet hr, ih⟩

omit hb hs in
theorem bracketed_ruleSet (brace s : List Char) : Bracketed n (ruleSet brace s).pieces := by
  have hrules := rules_inRuleSet s
  rw [ruleSet]
  split
  · have hgap := gaps_inRuleSet (Reading.many ruleStep s).rest
    exact .ruleSet (List.forall_mem_append.mpr ⟨hrules, hgap⟩) .nil
  · exact .plain rfl (bracketed_of_plain fun p hp => (hrules p hp).plain)

omit hb hs in
theorem bracketed_wordBlock {word s : List Char} {r : Reading} (h : wordBlock word s = some r) :
    Bracketed n r.pieces := by
  rw [wordBlock] at h
  split at h
  · cases h
    exact .single rfl
  · split at h
    · cases h
      exact .single rfl
    · cases h

end Productions

private theorem block_bracketed_over {levels : Nat}
    (hn : ∀ n, levels = n + 1 → BlockBracketed n (block n)) :
    BlockBracketed levels (block levels) := by
  intro s r h
  rw [block.eq_def] at h
  split at h
  · exact bracketed_wordBlock h
  · split at h
    · cases levels with
      | zero =>
        cases h
        exact .single rfl
      | succ n =>
        cases h
        exact bracketed_nestedBlock (hn n rfl) (block_scans n) _ _
    · split at h
      · cases h
        exact bracketed_ruleSet _ _
      · split at h
        · cases h
          exact .single rfl
        · cases h

/-- With so many levels left, so many parentheses can be open inside one another. -/
theorem block_bracketed (levels : Nat) : BlockBracketed levels (block levels) := by
  induction levels with
  | zero => exact block_bracketed_over (fun n h => absurd h (Nat.succ_ne_zero n).symm)
  | succ n ih =>
    apply block_bracketed_over
    rintro m hm
    cases hm
    exact ih

theorem pieces_bracketed (s : List Char) : Bracketed maxNesting (pieces s) :=
  (bracketed_declarations (block_bracketed maxNesting) (block_scans maxNesting) s).append
    (bracketed_gaps _)

section Nesting

theorem WellNested.count_eq {w : List Bracket} (h : WellNested w) :
    w.count .openParen = w.count .closeParen := by
  induction h with
  | nil => rfl
  | parens _ _ ihw ihv =>
    simp [ihw, ihv]
    omega
  | braces _ _ ihw ihv => simp [ihw, ihv]

variable {n : Nat} {r r' : List Char} {close : Piece} {inner ps : List Piece}

theorem brackets_ruleSet (h : ∀ p ∈ inner, InRuleSet p) :
    (.token .openBrace r :: (inner ++ .token .closeBrace r' :: ps)).filterMap bracketOf? =
      .openBrace :: .closeBrace :: ps.filterMap bracketOf? := by
  have hinner : inner.filterMap bracketOf? = [] :=
    List.filterMap_eq_nil_iff.mpr fun p hp => (h p hp).plain
  rw [List.filterMap_cons, List.filterMap_append, hinner]
  rfl

theorem brackets_block (h : bracketOf? close = some .closeParen) :
    (.token .openParen r :: (inner ++ close :: ps)).filterMap bracketOf? =
      .openParen :: (inner.filterMap bracketOf? ++ .closeParen :: ps.filterMap bracketOf?) := by
  rw [List.filterMap_cons, List.filterMap_append, List.filterMap_cons_some h]
  rfl

theorem Bracketed.wellNested (h : Bracketed n ps) : WellNested (ps.filterMap bracketOf?) := by
  induction h with
  | nil => exact .nil
  | plain hp _ ih =>
    rw [List.filterMap_cons_none hp]
    exact ih
  | ruleSet hinner _ ih =>
    rw [brackets_ruleSet hinner]
    exact .braces .nil ih
  | block _ hclose _ ihinner ih =>
    rw [brackets_block hclose]
    exact .parens ihinner ih

theorem Bracketed.open_le (h : Bracketed n ps) {w : List Bracket}
    (hw : w <+: ps.filterMap bracketOf?) : w.count .openParen ≤ w.count .closeParen + n := by
  induction h generalizing w with
  | nil =>
    rw [List.prefix_nil.mp hw]
    exact Nat.zero_le _
  | plain hp _ ih =>
    rw [List.filterMap_cons_none hp] at hw
    exact ih hw
  | ruleSet hinner _ ih =>
    rw [brackets_ruleSet hinner] at hw
    rcases List.prefix_cons_iff.mp hw with rfl | ⟨v, rfl, hv⟩
    · exact Nat.zero_le _
    · rcases List.prefix_cons_iff.mp hv with rfl | ⟨u, rfl, hu⟩
      · exact Nat.zero_le _
      · simpa using ih hu
  | block hinner hclose _ ihinner ih =>
    rw [brackets_block hclose] at hw
    rcases List.prefix_cons_iff.mp hw with rfl | ⟨v, rfl, t, ht⟩
    · exact Nat.zero_le _
    · rcases List.append_eq_append_iff.mp ht with ⟨u, hu, -⟩ | ⟨u, rfl, hu⟩
      · have hv := ihinner ⟨u, hu.symm⟩
        simp
        omega
      · -- the block is closed again, or just about to be
        have hclosed := hinner.wellNested.count_eq
        rcases List.prefix_cons_iff.mp ⟨t, hu.symm⟩ with rfl | ⟨x, rfl, hx⟩
        · simp [hclosed]
        · have hrest := ih hx
          simp [hclosed]
          omega

theorem openBrace_beside (hclose : bracketOf? close ≠ some .openBrace) {before after : List Piece}
    (h : inner ++ close :: ps = before ++ .token .openBrace r :: after) :
    (∃ m, inner = before ++ .token .openBrace r :: m ∧ after = m ++ close :: ps) ∨
      ∃ m, ps = m ++ .token .openBrace r :: after := by
  rcases List.append_eq_append_iff.mp h with ⟨u, -, hu⟩ | ⟨u, rfl, hu⟩
  · rcases List.cons_eq_append_iff.mp hu with ⟨-, hb⟩ | ⟨m, -, hm⟩
    · obtain ⟨rfl, -⟩ := List.cons.inj hb
      exact absurd rfl hclose
    · exact .inr ⟨m, hm⟩
  · rcases List.cons_eq_append_iff.mp hu with ⟨-, hb⟩ | ⟨m, rfl, hm⟩
    · obtain ⟨rfl, -⟩ := List.cons.inj hb
      exact absurd rfl hclose
    · exact .inl ⟨m, rfl, hm⟩

/-- After an open brace, the rule set comes first, and then the brace that closes it. -/
theorem Bracketed.ruleSet_of_brace (h : Bracketed n ps) {before after : List Piece}
    (hps : ps = before ++ .token .openBrace r :: after) : ∃ inner r' rest,
      after = inner ++ .token .closeBrace r' :: rest ∧ ∀ p ∈ inner, InRuleSet p := by
  induction h generalizing before after with
  | nil => simp at hps
  | plain hp _ ih =>
    rcases List.cons_eq_append_iff.mp hps with ⟨-, hb⟩ | ⟨before, -, hmore⟩
    · obtain ⟨rfl, -⟩ := List.cons.inj hb
      cases hp
    · exact ih hmore
  | @ruleSet _ _ r' inner _ hinner _ ih =>
    rcases List.cons_eq_append_iff.mp hps with ⟨-, hb⟩ | ⟨before, -, hmore⟩
    · obtain ⟨-, rfl⟩ := List.cons.inj hb
      exact ⟨inner, r', _, rfl, hinner⟩
    · rcases openBrace_beside (by rintro ⟨⟩) hmore with ⟨m, rfl, -⟩ | ⟨m, hm⟩
      · rcases hinner _ List.mem_append_cons_self with h | h | h <;> cases h
      · exact ih hm
  | block _ hclose _ ihinner ih =>
    rcases List.cons_eq_append_iff.mp hps with ⟨-, hb⟩ | ⟨before, -, hmore⟩
    · cases hb
    · rcases openBrace_beside (by rw [hclose]; rintro ⟨⟩) hmore with ⟨m, hm, rfl⟩ | ⟨m, hm⟩
      · obtain ⟨rules, r', rest, rfl, hrules⟩ := ihinner hm
        exact ⟨rules, r', rest ++ _, by rw [List.append_assoc]; rfl, hrules⟩
      · exact ih hm

end Nesting

theorem bracket?_of_token? (p : Piece) (start : Nat) :
    (p.token? start).bind bracket? = bracketOf? p := by
  cases p with
  | blank => rfl
  | token c r =>
    have hnone : ¬ClosesEmpty (Token.ofRun c start r none) := by
      rintro ⟨-, -, d, hd, -⟩
      cases hd
    cases c <;> first | rfl | exact if_neg hnone
  | fault f r =>
    have hbracket : (Lexis.Piece.token? start (.fault f r : Piece)).bind bracket? =
        if ClosesEmpty (Token.ofRun .error start r (some (f.describe (String.ofList r) start)))
          then some .closeParen else none := rfl
    rw [hbracket]
    by_cases hf : f = .emptyBlock
    · subst hf
      have hdescribed : "Empty block".toList <+:
          "Empty block: expecting a command before ')'.".toList := by decide +kernel
      refine if_congr ⟨?_, ?_⟩ rfl rfl
      · rintro ⟨-, htext, -⟩
        exact String.ofList_injective htext
      · rintro rfl
        exact ⟨rfl, rfl, _, rfl, hdescribed⟩
    · have hnone : bracketOf? (.fault f r) = none := by
        cases f <;> first | rfl | exact absurd rfl hf
      rw [hnone, if_neg]
      rintro ⟨-, -, d, hd, hprefix⟩
      cases hd
      exact describe_emptyBlock hf _ _ hprefix

theorem InRuleSet.category {p : Piece} (h : InRuleSet p) {start : Nat} {t : Token Category}
    (ht : p.token? start = some t) :
    t.category ∈ [Category.identifier, .ruleSeparator, .comment, .error] ∧ bracket? t = none := by
  have hnone : bracket? t = none := by
    have hbracket := bracket?_of_token? p start
    rw [ht, h.plain] at hbracket
    exact hbracket
  refine ⟨?_, hnone⟩
  cases p with
  | blank => cases ht
  | token c r =>
    cases ht
    rcases h with rfl | rfl | rfl <;> simp [Token.ofRun]
  | fault f r =>
    cases ht
    have herror : (Lexicon.error : Category) = .error := rfl
    simp [Token.ofRun, herror]

/-- Of the parentheses and braces among the tokens of any text, every one has its partner, no pair
crosses another, and at most `maxNesting` parentheses are open at any point. After an open brace
there are only rule names, commas, comments and errors up to the brace that closes it. -/
theorem brackets_nested (text : String) :
    WellNested ((tokens text).toList.filterMap bracket?) ∧
    (∀ w, w <+: (tokens text).toList.filterMap bracket? →
      w.count .openParen ≤ w.count .closeParen + maxNesting) ∧
    ∀ before t after, (tokens text).toList = before ++ t :: after → t.category = .openBrace →
      ∃ inner close rest, after = inner ++ close :: rest ∧ close.category = .closeBrace ∧
        ∀ u ∈ inner, u.category ∈ [Category.identifier, .ruleSeparator, .comment, .error] ∧
          bracket? u = none := by
  have hpieces := pieces_bracketed text.toList
  have hword : (tokens text).toList.filterMap bracket? =
      (pieces text.toList).filterMap bracketOf? :=
    Lexis.filterMap_layOut (fun p _ start => bracket?_of_token? p start) 0
  refine ⟨hword ▸ hpieces.wellNested, fun w hw => hpieces.open_le (hword ▸ hw), ?_⟩
  intro before t after hsplit ht
  obtain ⟨ps, p, qs, heq, rfl, hp⟩ := Lexis.layOut_split hsplit
  have hbrace := Lexis.Piece.eq_token_of_token? hp (by rw [ht]; decide)
  rw [ht] at hbrace
  rw [hbrace] at heq hp
  obtain ⟨inner, r, rest, rfl, hinner⟩ := hpieces.ruleSet_of_brace heq
  rw [tokens, heq] at hsplit
  have hafter := Lexis.layOut_after hp hsplit
  rw [Lexis.layOut_append, Lexis.layOut_cons] at hafter
  refine ⟨_, _, _, hafter.symm, rfl, ?_⟩
  intro u hu
  obtain ⟨_, q, _, rfl, hq⟩ := Lexis.mem_layOut.mp hu
  exact (hinner q List.mem_append_cons_self).category hq

theorem brackets_nested_unclosed :
    WellNested ((tokens "x = (({b 7} ()").toList.filterMap bracket?) ∧
    [Bracket.openParen, .openBrace].count .openParen ≤
      [Bracket.openParen, .openBrace].count .closeParen + maxNesting ∧
    ∃ inner close rest, (tokens "x = (({b 7} ()").toList.drop 5 = inner ++ close :: rest ∧
      close.category = .closeBrace ∧
      ∀ u ∈ inner, u.category ∈ [Category.identifier, .ruleSeparator, .comment, .error] ∧
        bracket? u = none := by
  have hnested := brackets_nested "x = (({b 7} ()"
  have hprefix : [Bracket.openParen, .openBrace] <+:
      (tokens "x = (({b 7} ()").toList.filterMap bracket? := by decide +kernel
  have hbrace : (tokens "x = (({b 7} ()").toList =
      (tokens "x = (({b 7} ()").toList.take 4 ++ Token.ofRun .openBrace 6 ['\x7b'] none ::
        (tokens "x = (({b 7} ()").toList.drop 5 := by decide +kernel
  exact ⟨hnested.1, hnested.2.1 _ hprefix, hnested.2.2 _ _ _ hbrace rfl⟩

/-- The outer parenthesis is never closed; the inner two are a pair although the block is empty. -/
example : (tokens "x = (()").toList.filterMap bracket? = [.openParen, .closeParen] := by
  decide +kernel

end GraphScribe.Program
