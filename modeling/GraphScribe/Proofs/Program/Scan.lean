import GraphScribe.Program.Block
import GraphScribe.Proofs.Program.Lexemes

/-! # The scan of a program text

Every production reads a scan of the text: whatever it recovers from, it takes pieces one after the
other and leaves nothing out. The productions that repeat read at least one piece at every step, so
they stop only where a further step declines, and the reading of a whole program ends at the end of
the text. -/
namespace GraphScribe.Program

open Lexis (Reads Scan gap?)

/-- The pieces of the reading lead from `s` to the rest of the reading. -/
def Reading.Scans (s : List Char) (r : Reading) : Prop := Scan recast s r.pieces r.rest

theorem Reading.Scans.after {s t : List Char} {ps : List Piece} {r : Reading}
    (h : Scan recast s ps t) (k : r.Scans t) : (r.after ps).Scans s := h.trans k

theorem Reading.Scans.andThen {s : List Char} {r : Reading} {next : List Char → Reading}
    (h : r.Scans s) (k : (next r.rest).Scans r.rest) : (r.andThen next).Scans s := h.trans k

theorem scans_gaps (s : List Char) : (gaps s).Scans s := Lexis.scan_gaps s

theorem gap?_rest_gaps (s : List Char) : gap? (κ := Category) (φ := Fault) (gaps s).rest = none :=
  Lexis.gap?_gaps_rest s

theorem scan_gaps_then {s t : List Char} {p : Piece} (h : Reads recast (gaps s).rest p t) :
    Scan recast s ((gaps s).pieces ++ [p]) t := (scans_gaps s).trans (.single h)

theorem scans_recover {expected : Expectation} {s : List Char}
    (h : gap? (κ := Category) (φ := Fault) s = none) : (recover expected s).Scans s := by
  unfold recover
  split
  · rename_i run rest hr
    exact .single (.stray h hr)
  · exact .nil s

theorem recover_pieces_ne_nil {expected : Expectation} {s : List Char} (hs : s ≠ []) :
    (recover expected s).pieces ≠ [] := by
  cases s with
  | nil => exact absurd rfl hs
  | cons c s => simp [recover, Lexis.readStray]

structure StepScans (step : List Char → Option Reading) : Prop where
  scans : ∀ {s r}, step s = some r → r.Scans s
  moves : ∀ {s r}, step s = some r → r.pieces ≠ []

theorem StepScans.shorter {step : List Char → Option Reading} (h : StepScans step)
    {s : List Char} {r : Reading} (hr : step s = some r) : r.rest.length < s.length :=
  (h.scans hr).shorter (h.moves hr)

namespace Reading

variable {step : List Char → Option Reading}

theorem many_of_none {s : List Char} (h : step s = none) : many step s = ⟨[], s, 0⟩ := by
  rw [many, h]

theorem many_of_some (hstep : StepScans step) {s : List Char} {r : Reading} (h : step s = some r) :
    many step s = r.andThen (many step) := by
  have hlt := hstep.shorter h
  rw [many, h]
  simp only [hlt, ↓reduceDIte]
  rfl

theorem many_induction (hstep : StepScans step) {P : List Char → Reading → Prop}
    (stop : ∀ s, step s = none → P s ⟨[], s, 0⟩)
    (next : ∀ s r, step s = some r → P r.rest (many step r.rest) → P s (r.andThen (many step)))
    (s : List Char) : P s (many step s) := by
  induction hn : s.length using Nat.strongRecOn generalizing s with
  | ind n ih =>
    cases h : step s with
    | none =>
      rw [many_of_none h]
      exact stop s h
    | some r =>
      rw [many_of_some hstep h]
      exact next s r h (ih _ (hn ▸ hstep.shorter h) _ rfl)

theorem scans_many (hstep : StepScans step) (s : List Char) : (many step s).Scans s := by
  refine many_induction hstep (P := fun s r => r.Scans s) ?_ ?_ s
  · exact fun s _ => .nil s
  · exact fun s r h ih => (hstep.scans h).andThen ih

/-- Repetition ends only where a further step declines. -/
theorem step_rest_many (hstep : StepScans step) (s : List Char) :
    step (many step s).rest = none := by
  refine many_induction hstep (P := fun _ r => step r.rest = none) ?_ ?_ s
  · exact fun s h => h
  · exact fun s r _ ih => ih

end Reading

section Productions

variable {block : BlockReader} {scope : Scope}

theorem scans_blockPast (hb : StepScans block) {s : List Char} {r : Reading}
    (h : blockPast block s = some r) : r.Scans s := by
  obtain ⟨r', hr, rfl⟩ := Option.map_eq_some_iff.mp h
  exact .after (scans_gaps s) (hb.scans hr)

theorem keyword?_eq_some {word : String} {s r t : List Char} (h : keyword? word s = some (r, t)) :
    read? .keyword s = some (r, t) ∧ String.ofList r = word := by
  simpa using Option.filter_eq_some_iff.mp h

theorem keywordPast_eq_some {word : String} {s : List Char} {g : List Piece} {w t : List Char}
    (h : keywordPast word s = some (g, w, t)) :
    g = (gaps s).pieces ∧ keyword? word (gaps s).rest = some (w, t) := by
  obtain ⟨c, hc, heq⟩ := Option.map_eq_some_iff.mp h
  cases heq
  exact ⟨rfl, hc⟩

/-- The word itself may be kept or marked, so the reading that goes on after it begins where the
word was read as either. -/
theorem scans_clause (hb : StepScans block) {missing : Fault} {s w t : List Char}
    (h : read? .keyword s = some (w, t)) : (clause block w missing t).Scans s := by
  unfold clause
  split
  · rename_i body hbody
    exact .after (.single (reads_token h (by decide))) (scans_blockPast hb hbody)
  · exact .single (reads_fault h)

theorem scans_elseBranch (hb : StepScans block) (s : List Char) : (elseBranch block s).Scans s := by
  unfold elseBranch
  split
  · rename_i g w t h
    obtain ⟨rfl, hr⟩ := keywordPast_eq_some h
    exact .after (scans_gaps s) (scans_clause hb (keyword?_eq_some hr).1)
  · exact .nil s

theorem scans_thenBranch (hb : StepScans block) {s w t : List Char}
    (h : read? .keyword s = some (w, t)) : (thenBranch block w t).Scans s := by
  unfold thenBranch
  split
  · rename_i body hbody
    refine .after (.single (reads_token h (by decide))) ?_
    exact (scans_blockPast hb hbody).andThen (scans_elseBranch hb _)
  · exact .single (reads_fault h)

theorem scans_then (hb : StepScans block) {s : List Char} {ps g : List Piece} {u w t : List Char}
    (h : Scan recast s ps u) (hk : keywordPast "then" u = some (g, w, t)) :
    ((thenBranch block w t).after (ps ++ g)).Scans s := by
  obtain ⟨rfl, hr⟩ := keywordPast_eq_some hk
  exact .after (h.trans (scans_gaps u)) (scans_thenBranch hb (keyword?_eq_some hr).1)

theorem scans_conditional (hb : StepScans block) {s w t : List Char}
    (h : read? .keyword s = some (w, t)) : (conditional block w t).Scans s := by
  unfold conditional
  split
  · rename_i condition hc
    have hcond := scans_blockPast hb hc
    split
    · rename_i g next rest hk
      exact scans_then hb (.cons (reads_token h (by decide)) hcond) hk
    · exact .after (.single (reads_fault h)) hcond
  · exact .single (reads_fault h)

theorem scans_attempt (hb : StepScans block) {s w t : List Char}
    (h : read? .keyword s = some (w, t)) : (attempt block w t).Scans s := by
  unfold attempt
  split
  · rename_i body hbody
    have hscan := scans_blockPast hb hbody
    split
    · rename_i g next rest hk
      exact scans_then hb (.cons (reads_token h (by decide)) hscan) hk
    · exact .after (.single (reads_token h (by decide))) hscan
  · exact .single (reads_fault h)

theorem scans_blockTail (hb : StepScans block) (s : List Char) : (blockTail block s).Scans s := by
  unfold blockTail
  dsimp only
  split
  · rename_i mark rest h
    exact scan_gaps_then (reads_token h (by decide))
  · split
    · rename_i word rest h
      exact .after (scans_gaps s) (scans_clause hb (keyword?_eq_some h).1)
    · exact .nil s

theorem scans_command (hb : StepScans block) {s : List Char}
    (hs : gap? (κ := Category) (φ := Fault) s = none) : (command block s).Scans s := by
  unfold command
  split
  · rename_i word rest h
    exact scans_conditional hb (keyword?_eq_some h).1
  · split
    · rename_i word rest h
      exact scans_attempt hb (keyword?_eq_some h).1
    · split
      · rename_i first h
        exact (hb.scans h).andThen (scans_blockTail hb _)
      · exact scans_recover hs

theorem command_pieces_ne_nil (hb : StepScans block) {s : List Char} (hs : s ≠ []) :
    (command block s).pieces ≠ [] := by
  unfold command
  split
  · unfold conditional
    split
    · split <;> simp [Reading.after]
    · simp
  · split
    · unfold attempt
      split
      · split <;> simp [Reading.after]
      · simp
    · split
      · rename_i first h
        simp [Reading.andThen, hb.moves h]
      · exact recover_pieces_ne_nil hs

theorem scans_commandEnd (s : List Char) : (commandEnd s).Scans s := by
  unfold commandEnd
  dsimp only
  split
  · rename_i mark rest h
    split
    · exact scan_gaps_then (reads_fault h)
    · exact scan_gaps_then (reads_token h (by decide))
  · split
    · exact .nil s
    · exact .after (scans_gaps s) (scans_recover (gap?_rest_gaps s))

theorem sequenceStep_scans (hb : StepScans block) : StepScans (sequenceStep block scope) where
  scans := by
    intro s r h
    unfold sequenceStep at h
    dsimp only at h
    split at h
    · cases h
    · split at h
      · rename_i close rest hc
        split at h
        · cases h
        · cases h
          exact scan_gaps_then (reads_fault hc)
      · split at h
        · rename_i mark rest hm
          cases h
          exact scan_gaps_then (reads_fault hm)
        · cases h
          refine Reading.Scans.after (scans_gaps s) ?_
          exact (scans_command hb (gap?_rest_gaps s)).andThen (scans_commandEnd _)
  moves := by
    intro s r h
    unfold sequenceStep at h
    dsimp only at h
    split at h
    · cases h
    · rename_i hend
      split at h
      · split at h
        · cases h
        · cases h
          simp
      · split at h
        · cases h
          simp
        · cases h
          have hne : (gaps s).rest ≠ [] := by
            intro hnil
            simp [hnil] at hend
          simp [Reading.after, Reading.andThen, command_pieces_ne_nil hb hne]

theorem scans_sequence (hb : StepScans block) (s : List Char) :
    (sequence block scope s).Scans s := Reading.scans_many (sequenceStep_scans hb) s

theorem scans_declarationHead {s name t : List Char} (h : read? .identifier s = some (name, t)) :
    (declarationHead name t).1.Scans s := by
  unfold declarationHead
  dsimp only
  split
  · rename_i sign rest hsign
    have hrest := scan_gaps_then (s := t) (reads_token hsign (by decide))
    split
    · exact .cons (reads_fault h) hrest
    · rename_i hr
      exact .cons (reads_declared h (by simpa using hr)) hrest
  · exact .single (reads_fault h)

theorem scans_declarationEnd (name : List Char) (hasSign : Bool) (commands : Nat)
    (s : List Char) : (declarationEnd name hasSign commands s).Scans s := by
  unfold declarationEnd
  dsimp only
  split
  · rename_i period rest h
    split
    · exact scan_gaps_then (reads_fault h)
    · exact scan_gaps_then (reads_token h (by decide))
  · exact .nil s

theorem scans_declaration (hb : StepScans block) {s : List Char}
    (hs : gap? (κ := Category) (φ := Fault) s = none) : (declaration block scope s).Scans s := by
  unfold declaration
  split
  · exact scans_recover hs
  · rename_i name rest h
    refine Reading.Scans.andThen ?_ (scans_declarationEnd _ _ _ _)
    exact (scans_declarationHead h).andThen (scans_sequence hb _)

theorem declaration_pieces_ne_nil {s : List Char} (hs : s ≠ []) :
    (declaration block scope s).pieces ≠ [] := by
  unfold declaration
  split
  · exact recover_pieces_ne_nil hs
  · unfold declarationHead
    dsimp only
    split <;> simp [Reading.andThen]

theorem declarationStep_scans (hb : StepScans block) :
    StepScans (declarationStep block scope) where
  scans := by
    intro s r h
    unfold declarationStep at h
    dsimp only at h
    have hdecl : ((declaration block scope (gaps s).rest).after (gaps s).pieces).Scans s :=
      .after (scans_gaps s) (scans_declaration hb (gap?_rest_gaps s))
    split at h
    · cases h
    · split at h
      · cases h
      · rename_i close rest hc
        cases h
        exact scan_gaps_then (reads_fault hc)
      · split at h
        · cases h
          exact hdecl
        · cases h
      · cases h
        exact hdecl
  moves := by
    intro s r h
    unfold declarationStep at h
    dsimp only at h
    split at h
    · cases h
    · rename_i hend
      have hne : (gaps s).rest ≠ [] := by simpa using hend
      split at h
      · cases h
      · cases h
        simp
      · split at h
        · cases h
          simp [Reading.after, declaration_pieces_ne_nil hne]
        · cases h
      · cases h
        simp [Reading.after, declaration_pieces_ne_nil hne]

theorem scans_declarations (hb : StepScans block) (s : List Char) :
    (declarations block scope s).Scans s := Reading.scans_many (declarationStep_scans hb) s

theorem scans_ruleEnd (s : List Char) : (ruleEnd s).Scans s := by
  unfold ruleEnd
  dsimp only
  split
  · rename_i comma rest h
    split
    · exact scan_gaps_then (reads_token h (by decide))
    · exact scan_gaps_then (reads_fault h)
  · split
    · exact .nil s
    · exact .after (scans_gaps s) (scans_recover (gap?_rest_gaps s))

theorem ruleStep_scans : StepScans ruleStep where
  scans := by
    intro s r h
    unfold ruleStep at h
    dsimp only at h
    split at h
    · cases h
    · split at h
      · cases h
        exact .after (scans_gaps s) (scans_recover (gap?_rest_gaps s))
      · rename_i name rest hn
        cases h
        refine .after ?_ (scans_ruleEnd rest)
        split
        · exact scan_gaps_then (reads_fault hn)
        · rename_i hr
          exact scan_gaps_then (reads_name hn (fun hres => absurd hres hr))
  moves := by
    intro s r h
    unfold ruleStep at h
    dsimp only at h
    split at h
    · cases h
    · rename_i hend
      have hne : (gaps s).rest ≠ [] := by
        intro hnil
        simp [hnil, ruleSetEnds, sequenceEnds] at hend
      split at h <;> cases h
      · simp [Reading.after, recover_pieces_ne_nil hne]
      · simp [Reading.after]

theorem scans_ruleSet {s brace t : List Char} (h : read? .openBrace s = some (brace, t)) :
    (ruleSet brace t).Scans s := by
  have hrules := Reading.scans_many ruleStep_scans t
  unfold ruleSet
  dsimp only
  split
  · rename_i close rest hc
    have hclose := hrules.trans (scan_gaps_then (reads_token hc (by decide)))
    simpa only [Reading.Scans, List.cons_append, List.append_assoc] using
      Scan.cons (reads_token h (by decide)) hclose
  · exact .cons (reads_fault h) hrules

theorem strayPeriodStep_scans (hb : StepScans block) : StepScans (strayPeriodStep block) where
  scans := by
    intro s r h
    unfold strayPeriodStep at h
    dsimp only at h
    split at h
    · cases h
    · rename_i period rest hp
      split at h
      · cases h
      · cases h
        exact .after (scan_gaps_then (reads_fault hp)) (scans_sequence hb rest)
  moves := by
    intro s r h
    unfold strayPeriodStep at h
    dsimp only at h
    split at h
    · cases h
    · split at h
      · cases h
      · cases h
        simp [Reading.after]

theorem scans_blockBody (hb : StepScans block) (s : List Char) : (blockBody block s).Scans s := by
  unfold blockBody
  dsimp only
  have hlocals : (if startsDeclaration s then declarations block .inner s
      else ⟨[], s, 0⟩ : Reading).Scans s := by
    split
    · exact scans_declarations hb s
    · exact .nil s
  have hmore := Reading.scans_many (strayPeriodStep_scans hb)
  exact (hlocals.trans (scans_sequence hb _)).trans (hmore _)

theorem scans_nestedBlock (hb : StepScans block) {s paren t : List Char}
    (h : read? .openParen s = some (paren, t)) : (nestedBlock block paren t).Scans s := by
  have hbody := scans_blockBody hb t
  unfold nestedBlock
  dsimp only
  split
  · rename_i close rest hc
    have hopen := Scan.cons (reads_token h (by decide)) (hbody.trans (scans_gaps _))
    have hclose : Reads recast (gaps (blockBody block t).rest).rest
        (if (blockBody block t).commands = 0 then .fault .emptyBlock close
          else .token .closeParen close : Piece) rest := by
      split
      · exact reads_fault hc
      · exact reads_token hc (by decide)
    exact hopen.trans (.single hclose)
  · exact .cons (reads_fault h) hbody

theorem scans_wordBlock {s word t : List Char} {r : Reading}
    (h : read? .keyword s = some (word, t)) (hr : wordBlock word t = some r) : r.Scans s := by
  unfold wordBlock at hr
  dsimp only at hr
  split at hr
  · cases hr
    exact .single (reads_token h (by decide))
  · split at hr
    · cases hr
      exact .single (reads_fault h)
    · cases hr

theorem wordBlock_pieces_ne_nil {word t : List Char} {r : Reading}
    (hr : wordBlock word t = some r) : r.pieces ≠ [] := by
  unfold wordBlock at hr
  dsimp only at hr
  split at hr
  · cases hr
    simp
  · split at hr <;> cases hr
    simp

theorem nestedBlock_pieces_ne_nil (paren s : List Char) : (nestedBlock block paren s).pieces ≠ [] := by
  unfold nestedBlock
  dsimp only
  split <;> simp

theorem ruleSet_pieces_ne_nil (brace s : List Char) : (ruleSet brace s).pieces ≠ [] := by
  unfold ruleSet
  dsimp only
  split <;> simp

end Productions

private theorem block_scans_over {levels : Nat} (hn : ∀ n, levels = n + 1 → StepScans (block n)) :
    StepScans (block levels) where
  scans := by
    intro s r h
    unfold block at h
    split at h
    · rename_i word rest hw
      exact scans_wordBlock hw h
    · split at h
      · rename_i paren rest hp
        cases levels with
        | zero =>
          cases h
          exact .single (reads_fault hp)
        | succ n =>
          cases h
          exact scans_nestedBlock (hn n rfl) hp
      · split at h
        · rename_i brace rest hbr
          cases h
          exact scans_ruleSet hbr
        · split at h
          · rename_i hk _ _ _ _ _ name rest hname
            cases h
            exact .single (reads_name hname (fun _ => hk))
          · cases h
  moves := by
    intro s r h
    unfold block at h
    split at h
    · exact wordBlock_pieces_ne_nil h
    · split at h
      · cases levels with
        | zero => cases h; simp
        | succ n => cases h; exact nestedBlock_pieces_ne_nil _ _
      · split at h
        · cases h
          exact ruleSet_pieces_ne_nil _ _
        · split at h <;> cases h
          simp

theorem block_scans (levels : Nat) : StepScans (block levels) := by
  induction levels with
  | zero => exact block_scans_over (fun n h => absurd h (Nat.succ_ne_zero n).symm)
  | succ n ih =>
    refine block_scans_over ?_
    intro m hm
    cases hm
    exact ih

theorem scans_program (s : List Char) : (declarations (block maxNesting) .top s).Scans s :=
  scans_declarations (block_scans maxNesting) s

/-- At the top a step declines only at the end of the text. -/
theorem declarationStep_top_eq_none {block : BlockReader} {s : List Char}
    (h : declarationStep block .top s = none) : (gaps s).rest = [] := by
  unfold declarationStep at h
  dsimp only at h
  split at h
  · rename_i hend
    simpa using hend
  · split at h <;> simp_all

theorem program_rest (s : List Char) :
    (gaps (declarations (block maxNesting) .top s).rest).rest = [] :=
  declarationStep_top_eq_none (Reading.step_rest_many (declarationStep_scans (block_scans _)) s)

theorem scan_pieces (s : List Char) : Scan recast s (pieces s) [] := by
  have h := (scans_program s).trans (scans_gaps _)
  rw [program_rest] at h
  exact h

end GraphScribe.Program
