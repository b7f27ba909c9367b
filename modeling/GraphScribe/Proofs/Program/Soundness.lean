import GraphScribe.Proofs.Program.Layout

/-! # What a reading without faults has read

Each production that leaves no fault behind has read what the grammar asks for: where something is
missing or out of place, some branch of the reader has marked a token. The productions are proved for
any reader of blocks that is sound itself, and the recursion is closed over the levels. -/
namespace GraphScribe.Program

open Lexis (Reads Scan)

/-- No fault, and no reserved word in the place of a name. -/
def IsClean : Piece → Prop
  | .blank _ => True
  | .token c r => c = .identifier → isReserved (String.ofList r) = false
  | .fault _ _ => False

def Clean (ps : List Piece) : Prop := ∀ p ∈ ps, IsClean p

@[simp] theorem clean_append {ps qs : List Piece} : Clean (ps ++ qs) ↔ Clean ps ∧ Clean qs :=
  List.forall_mem_append

@[simp] theorem clean_cons {p : Piece} {ps : List Piece} :
    Clean (p :: ps) ↔ IsClean p ∧ Clean ps := List.forall_mem_cons

@[simp] theorem isClean_fault {f : Fault} {r : List Char} : ¬IsClean (.fault f r) := id

theorem clean_gaps (s : List Char) : Clean (gaps s).pieces := by
  intro p hp
  have hgap := isGap_of_mem_gaps s p hp
  cases p with
  | blank r => trivial
  | token c r =>
    rintro rfl
    cases hgap
  | fault f r => exact hgap

theorem recover_clean {e : Expectation} {s : List Char} (h : Clean (recover e s).pieces) :
    s = [] := by
  cases s with
  | nil => rfl
  | cons c s => simp [recover, Lexis.readStray] at h

/-- The reading from `s` is a layout of something of `P`. -/
def Spells (P : List Spaced → Prop) (s : List Char) (r : Reading) : Prop :=
  ∃ xs, Laid s xs r.rest ∧ r.pieces = flatten xs ∧ P xs

def BlockSound (block : BlockReader) (B : List Spaced → Prop) : Prop :=
  ∀ {s r}, blockPast block s = some r → Clean r.pieces → Spells B s r

section Productions

variable {block : BlockReader} {scope : Scope} {B : List Spaced → Prop} {s w t : List Char}

theorem keyword?_spaced {word : String} (h : keyword? word (gaps s).rest = some (w, t)) :
    spaced.keyword word ((gaps s).pieces, .token .keyword w) := by
  obtain ⟨_, rfl⟩ := keyword?_eq_some h
  exact ⟨by rw [String.toList_ofList], isGap_of_mem_gaps s⟩

theorem mark_spaced {c : Category} {a : Char} (hc : c.mark? = some a)
    (h : read? c (gaps s).rest = some (w, t)) :
    spaced.mark c ((gaps s).pieces, .token c w) := by
  obtain ⟨rfl, _⟩ := (read?_mark hc).mp h
  exact ⟨a, hc, rfl, isGap_of_mem_gaps s⟩

theorem isName_of_read? {s name t : List Char} (h : read? .identifier s = some (name, t))
    (hres : isReserved (String.ofList name) = false) : IsName (String.ofList name) := by
  rw [read?_identifier] at h
  refine ⟨?_, hres⟩
  rw [String.toList_ofList]
  exact (Lexis.readName_eq_some_iff.mp h).1

theorem name_spaced {name : List Char} (h : read? .identifier (gaps s).rest = some (name, t))
    (hres : isReserved (String.ofList name) = false) :
    spaced.name ((gaps s).pieces, .token .identifier name) :=
  ⟨String.ofList name, isName_of_read? h hres, by rw [String.toList_ofList], isGap_of_mem_gaps s⟩

theorem clause_sound (hb : BlockSound block B) {word : String} {missing : Fault}
    (hk : keyword? word (gaps s).rest = some (w, t))
    (hc : Clean (clause block w missing t).pieces) :
    Spells (fun xs => ∃ x ys, xs = x :: ys ∧ spaced.keyword word x ∧ B ys) s
      ((clause block w missing t).after (gaps s).pieces) := by
  unfold clause at hc ⊢
  split at hc
  · rename_i body hbody
    obtain ⟨xs, hl, hps, hx⟩ := hb hbody (by simpa [IsClean] using hc)
    refine ⟨_ :: xs, hl.token (keyword?_eq_some hk).1 (by decide), ?_, _, xs, rfl,
      keyword?_spaced hk, hx⟩
    simp [hps]
  · simp at hc

theorem elseBranch_sound (hb : BlockSound block B) (hc : Clean (elseBranch block s).pieces) :
    Spells (ElsePart spaced B) s (elseBranch block s) := by
  unfold elseBranch at hc ⊢
  split at hc
  · rename_i gap word rest hk
    obtain ⟨rfl, hword⟩ := keywordPast_eq_some hk
    obtain ⟨xs, hl, hps, x, ys, rfl, hx, hys⟩ := clause_sound hb hword (clean_append.mp hc).2
    exact ⟨x :: ys, hl, hps, .some hx hys⟩
  · exact ⟨[], .nil s, rfl, .none⟩

theorem thenBranch_sound (hb : BlockSound block B)
    (hk : keyword? "then" (gaps s).rest = some (w, t))
    (hc : Clean (thenBranch block w t).pieces) :
    Spells (ThenPart spaced B) s ((thenBranch block w t).after (gaps s).pieces) := by
  unfold thenBranch at hc ⊢
  split at hc
  · rename_i body hbody
    simp only [Reading.after_pieces, Reading.andThen, clean_append] at hc
    obtain ⟨xs, hx, hxs, hB⟩ := hb hbody hc.2.1
    obtain ⟨ys, hy, hys, hE⟩ := elseBranch_sound hb hc.2.2
    refine ⟨_ :: (xs ++ ys), (hx.trans hy).token (keyword?_eq_some hk).1 (by decide), ?_,
      .mk (keyword?_spaced hk) hB hE⟩
    simp [Reading.andThen, hxs, hys]
  · simp at hc

theorem then_sound (hb : BlockSound block B) {body : Reading} {gap : List Piece}
    {next rest : List Char} (hk : read? .keyword (gaps s).rest = some (w, t))
    (hbody : blockPast block t = some body)
    (hthen : keywordPast "then" body.rest = some (gap, next, rest))
    (hc : Clean (body.pieces ++ gap ++ (thenBranch block next rest).pieces)) :
    Spells (fun xs => ∃ x y, xs = ((gaps s).pieces, .token .keyword w) :: (x ++ y) ∧ B x ∧
        ThenPart spaced B y) s
      (((thenBranch block next rest).after (.token .keyword w :: body.pieces ++ gap)).after
        (gaps s).pieces) := by
  obtain ⟨rfl, hnext⟩ := keywordPast_eq_some hthen
  simp only [clean_append] at hc
  obtain ⟨xs, hx, hxs, hB⟩ := hb hbody hc.1.1
  obtain ⟨ys, hy, hys, hT⟩ := thenBranch_sound hb hnext hc.2
  refine ⟨_ :: (xs ++ ys), (hx.trans hy).token hk (by decide), ?_, xs, ys, rfl, hB, hT⟩
  simp only [Reading.after_pieces] at hys
  simp [hxs, ← hys]

theorem conditional_sound (hb : BlockSound block B)
    (hk : keyword? "if" (gaps s).rest = some (w, t))
    (hc : Clean (conditional block w t).pieces) :
    Spells (Command spaced B) s ((conditional block w t).after (gaps s).pieces) := by
  unfold conditional at hc ⊢
  split at hc
  · rename_i condition hcond
    split at hc
    · rename_i gap next rest hthen
      have hclean : Clean (condition.pieces ++ gap ++ (thenBranch block next rest).pieces) := by
        simpa [IsClean, and_assoc] using hc
      obtain ⟨xs, hl, hps, x, y, rfl, hB, hT⟩ :=
        then_sound hb (keyword?_eq_some hk).1 hcond hthen hclean
      exact ⟨_, hl, hps, .conditional (keyword?_spaced hk) hB hT⟩
    · simp at hc
  · simp at hc

theorem attempt_sound (hb : BlockSound block B)
    (hk : keyword? "try" (gaps s).rest = some (w, t))
    (hc : Clean (attempt block w t).pieces) :
    Spells (Command spaced B) s ((attempt block w t).after (gaps s).pieces) := by
  unfold attempt at hc ⊢
  split at hc
  · rename_i body hbody
    split at hc
    · rename_i gap next rest hthen
      have hclean : Clean (body.pieces ++ gap ++ (thenBranch block next rest).pieces) := by
        simpa [IsClean, and_assoc] using hc
      obtain ⟨xs, hl, hps, x, y, rfl, hB, hT⟩ :=
        then_sound hb (keyword?_eq_some hk).1 hbody hthen hclean
      exact ⟨_, hl, hps, .attemptThen (keyword?_spaced hk) hB hT⟩
    · rename_i hthen
      obtain ⟨xs, hl, hps, hB⟩ := hb hbody (by simpa [IsClean] using hc)
      refine ⟨_ :: xs, hl.token (keyword?_eq_some hk).1 (by decide), ?_,
        .attempt (keyword?_spaced hk) hB⟩
      simp [hps]
  · simp at hc

theorem blockTail_sound (hb : BlockSound block B) (hc : Clean (blockTail block s).pieces) :
    Spells (fun ys => ∀ xs, B xs → Command spaced B (xs ++ ys)) s (blockTail block s) := by
  unfold blockTail at hc ⊢
  dsimp only at hc ⊢
  split at hc
  · rename_i mark rest hm
    refine ⟨[_], .token hm (by decide) (.nil rest), by simp, ?_⟩
    intro xs hx
    exact .repeated hx (mark_spaced rfl hm)
  · split at hc
    · rename_i word rest hk
      obtain ⟨xs, hl, hps, x, ys, rfl, hx, hys⟩ := clause_sound hb hk (clean_append.mp hc).2
      exact ⟨x :: ys, hl, hps, fun xs hxs => .choice hxs hx hys⟩
    · refine ⟨[], .nil s, rfl, ?_⟩
      intro xs hx
      rw [List.append_nil]
      exact .block hx

theorem blockPast_of_some {r : Reading} (h : block (gaps s).rest = some r) :
    blockPast block s = some (r.after (gaps s).pieces) := by
  simp [blockPast, h]

theorem command_sound (hb : BlockSound block B) (hs : (gaps s).rest ≠ [])
    (hc : Clean (command block (gaps s).rest).pieces) :
    Spells (Command spaced B) s ((command block (gaps s).rest).after (gaps s).pieces) := by
  unfold command at hc ⊢
  split at hc
  · rename_i word rest hk
    exact conditional_sound hb hk hc
  · split at hc
    · rename_i word rest hk
      exact attempt_sound hb hk hc
    · split at hc
      · rename_i first hfirst
        have hpast := blockPast_of_some hfirst
        simp only [Reading.andThen, clean_append] at hc
        obtain ⟨xs, hx, hxs, hB⟩ := hb hpast (by simp [clean_gaps, hc.1])
        obtain ⟨ys, hy, hys, hT⟩ := blockTail_sound hb hc.2
        refine ⟨xs ++ ys, hx.trans hy, ?_, hT xs hB⟩
        rw [Reading.after_andThen]
        simp only [Reading.andThen, Reading.after_rest, flatten_append, ← hys, ← hxs]
      · exact absurd (recover_clean hc) hs

/-- The semicolon after a command, which the sequence goes on after, or the end of the sequence. -/
theorem commandEnd_sound (hc : Clean (commandEnd s).pieces) :
    (∃ x, Laid s [x] (commandEnd s).rest ∧ (commandEnd s).pieces = flatten [x] ∧
        spaced.mark .statementSeparator x ∧
        sequenceEnds (gaps (commandEnd s).rest).rest = false) ∨
      (commandEnd s = ⟨[], s, 0⟩ ∧ sequenceEnds (gaps s).rest = true) := by
  unfold commandEnd at hc ⊢
  dsimp only at hc ⊢
  split at hc
  · rename_i mark rest hm
    left
    split at hc
    · simp at hc
    · rename_i hends
      exact ⟨_, .token hm (by decide) (.nil rest), by simp [hends], mark_spaced rfl hm,
        by simpa using hends⟩
  · split at hc
    · rename_i hends
      right
      exact ⟨by simp [hends], hends⟩
    · rename_i hends
      simp only [Reading.after_pieces, clean_append] at hc
      rw [recover_clean hc.2] at hends
      exact absurd rfl hends

theorem sequenceStep_eq_none (h : sequenceStep block scope s = none) :
    sequenceEnds (gaps s).rest = true := by
  unfold sequenceStep at h
  dsimp only at h
  split at h
  · rename_i hends
    rw [sequenceEnds, hends, Bool.true_or]
  · split at h
    · rename_i close rest hclose
      simp [sequenceEnds, starts, hclose]
    · split at h <;> cases h

theorem sequenceStep_sound (hb : BlockSound block B) {r : Reading}
    (hstep : sequenceStep block scope s = some r) (hc : Clean r.pieces) :
    sequenceEnds (gaps s).rest = false ∧ r.commands = 1 ∧
      ((Spells (fun xs => ∃ y x, xs = y ++ [x] ∧ Command spaced B y ∧
            spaced.mark .statementSeparator x) s r ∧ sequenceEnds (gaps r.rest).rest = false) ∨
        (Spells (Command spaced B) s r ∧ sequenceEnds (gaps r.rest).rest = true)) := by
  unfold sequenceStep at hstep
  dsimp only at hstep
  split at hstep
  · cases hstep
  · rename_i hne
    split at hstep
    · split at hstep
      · cases hstep
      · cases hstep
        simp at hc
    · rename_i hclose
      split at hstep
      · cases hstep
        simp at hc
      · cases hstep
        have hends : sequenceEnds (gaps s).rest = false := by
          simpa [sequenceEnds, starts, hclose] using hne
        have hnil : (gaps s).rest ≠ [] := by
          intro hnil
          simp [hnil] at hne
        rw [Reading.after_andThen] at hc ⊢
        simp only [Reading.andThen, Reading.after_rest, clean_append] at hc ⊢
        obtain ⟨xs, hx, hxs, hC⟩ := command_sound hb hnil (clean_append.mp hc.1).2
        refine ⟨hends, trivial, ?_⟩
        rcases commandEnd_sound hc.2 with ⟨x, hm, hmp, hmark, hgo⟩ | ⟨hend, hdone⟩
        · left
          refine ⟨⟨xs ++ [x], hx.trans hm, ?_, xs, x, rfl, hC, hmark⟩, hgo⟩
          rw [hxs, hmp, flatten_append]
        · right
          rw [hend]
          refine ⟨⟨xs, hx, ?_, hC⟩, hdone⟩
          rw [hxs, List.append_nil]

theorem sequence_sound (hs : StepScans block) (hb : BlockSound block B)
    (hc : Clean (sequence block scope s).pieces) :
    (sequenceEnds (gaps s).rest = true → sequence block scope s = ⟨[], s, 0⟩) ∧
      (sequenceEnds (gaps s).rest = false →
        Spells (Sequence spaced B) s (sequence block scope s) ∧
          0 < (sequence block scope s).commands) := by
  unfold sequence at hc ⊢
  revert hc
  refine Reading.many_induction (sequenceStep_scans hs) (P := fun s r => Clean r.pieces →
    (sequenceEnds (gaps s).rest = true → r = ⟨[], s, 0⟩) ∧
      (sequenceEnds (gaps s).rest = false → Spells (Sequence spaced B) s r ∧ 0 < r.commands)) ?_ ?_ s
  · intro s hstop _
    refine ⟨fun _ => rfl, ?_⟩
    intro hends
    rw [sequenceStep_eq_none hstop] at hends
    cases hends
  · intro s r hstep ih hc
    simp only [Reading.andThen, clean_append] at hc ⊢
    obtain ⟨hends, hone, hread⟩ := sequenceStep_sound hb hstep hc.1
    obtain ⟨hstop, hnext⟩ := ih hc.2
    constructor
    · intro h
      rw [hends] at h
      cases h
    intro _
    refine ⟨?_, by omega⟩
    rcases hread with ⟨⟨xs, hx, hxs, y, x, rfl, hC, hmark⟩, hgo⟩ | ⟨⟨xs, hx, hxs, hC⟩, hdone⟩
    · obtain ⟨⟨ys, hy, hys, hS⟩, _⟩ := hnext hgo
      refine ⟨y ++ x :: ys, ?_, ?_, .more hC hmark hS⟩
      · simpa using hx.trans hy
      · simp [hxs, hys]
    · rw [hstop hdone]
      exact ⟨xs, hx, by rw [hxs, List.append_nil], .one hC⟩

variable {p : Place}

theorem declarationHead_sound {name : List Char}
    (hname : read? .identifier (gaps s).rest = some (name, t))
    (hfirst : p = .first → (gaps s).pieces = [])
    (hinner : p ≠ .top → (Text.dropBlank t).head? = some '=')
    (hc : Clean (declarationHead name t).1.pieces) :
    (declarationHead name t).2 = true ∧ (declarationHead name t).1.commands = 0 ∧
      Spells (fun xs => ∃ x y, xs = [x, y] ∧ spaced.declared p x ∧ spaced.sign p y) s
        ((declarationHead name t).1.after (gaps s).pieces) := by
  unfold declarationHead at hc ⊢
  dsimp only at hc ⊢
  split at hc
  · rename_i sign rest hsign
    split at hc
    · simp at hc
    · rename_i hres
      have hres : isReserved (String.ofList name) = false := by simpa using hres
      obtain ⟨rfl, hs⟩ := (read?_mark rfl).mp hsign
      have hdecl : spaced.declared p ((gaps s).pieces, .token .declaration name) :=
        ⟨String.ofList name, isName_of_read? hname hres,
          ⟨by rw [String.toList_ofList], isGap_of_mem_gaps s⟩, hfirst⟩
      refine ⟨rfl, rfl, [_, ((gaps t).pieces, _)], ?_, ?_, _, _, rfl, hdecl,
        ⟨rfl, isGap_of_mem_gaps t⟩, fun hp => (gaps_of_sign (hinner hp)).2⟩
      · exact .cons rfl (reads_declared hname hres) (.token hsign (by decide) (.nil rest))
      · simp [hres]
  · simp at hc

theorem declarationEnd_sound {name : List Char} {commands : Nat}
    (hc : Clean (declarationEnd name true commands s).pieces) :
    (∃ x, Laid s [x] (declarationEnd name true commands s).rest ∧
        (declarationEnd name true commands s).pieces = flatten [x] ∧
        spaced.mark .declarationSeparator x ∧ 0 < commands) ∨
      (declarationEnd name true commands s = ⟨[], s, 0⟩ ∧
        read? .declarationSeparator (gaps s).rest = none) := by
  unfold declarationEnd at hc ⊢
  dsimp only at hc ⊢
  split at hc
  · rename_i period rest hp
    left
    split at hc
    · simp at hc
    · rename_i hempty
      have hpos : commands ≠ 0 := by simpa using hempty
      refine ⟨_, .token hp (by decide) (.nil rest), ?_, mark_spaced rfl hp, by omega⟩
      simp [hpos]
  · rename_i hp
    exact Or.inr ⟨rfl, hp⟩

/-- Nothing of a sequence is left and no period follows. -/
def Stopped (block : BlockReader) (scope : Scope) (s : List Char) : Prop :=
  sequenceStep block scope s = none ∧ read? .declarationSeparator (gaps s).rest = none

/-- After a declaration that lacks its period no other begins. -/
theorem Stopped.declarationStep (h : Stopped block scope s) :
    declarationStep block scope s = none := by
  obtain ⟨hstep, hperiod⟩ := h
  unfold sequenceStep at hstep
  unfold Program.declarationStep
  dsimp only at hstep ⊢
  split at hstep
  · rename_i hends
    simp only [starts, hperiod, Option.isSome_none, Bool.or_false] at hends
    rw [if_pos hends]
  · split at hstep
    · rename_i close rest hclose
      split at hstep
      · rw [hclose]
        split <;> rfl
      · cases hstep
    · split at hstep <;> cases hstep

theorem declaration_sound (hs : StepScans block) (hb : BlockSound block B)
    (hne : (gaps s).rest ≠ []) (hfirst : p = .first → (gaps s).pieces = [])
    (hinner : p ≠ .top → startsDeclaration (gaps s).rest = true)
    (hc : Clean (declaration block p.scope (gaps s).rest).pieces) :
    Spells (fun xs => ∃ a b x c, xs = a :: b :: (x ++ [c]) ∧ spaced.declared p a ∧
        spaced.sign p b ∧ Sequence spaced B x ∧ spaced.mark .declarationSeparator c) s
      ((declaration block p.scope (gaps s).rest).after (gaps s).pieces) ∨
    (Spells (Unfinished spaced B p) s
        ((declaration block p.scope (gaps s).rest).after (gaps s).pieces) ∧
      Stopped block p.scope (declaration block p.scope (gaps s).rest).rest) := by
  unfold declaration at hc ⊢
  split at hc
  · exact absurd (recover_clean hc) hne
  · rename_i name t hname
    have hsign : p ≠ .top → (Text.dropBlank t).head? = some '=' := by
      intro hp
      obtain ⟨r, u, hr, _, hhead⟩ := startsDeclaration_iff.mp (hinner hp)
      rw [read?_identifier, hr] at hname
      cases hname
      exact hhead
    simp only [Reading.andThen, clean_append] at hc
    obtain ⟨⟨hhead, hbody⟩, hend⟩ := hc
    obtain ⟨hhas, hzero, xs, hx, hxs, a, b, rfl, ha, hb'⟩ :=
      declarationHead_sound hname hfirst hsign hhead
    simp only [hhas, hzero, Nat.zero_add, Reading.after_rest] at hend hx
    obtain ⟨hempty, hsome⟩ := sequence_sound hs hb hbody
    simp only [Reading.after_andThen, hhas]
    simp only [Reading.andThen, Reading.after_rest, Reading.after_commands, hzero, Nat.zero_add]
    have hsteps : StepScans (sequenceStep block p.scope) := sequenceStep_scans hs
    have hstop := Reading.step_rest_many hsteps (declarationHead name t).1.rest
    rcases declarationEnd_sound hend with ⟨c, hl, hps, hmark, hpos⟩ | ⟨hnone, hperiod⟩
    · left
      cases hends : sequenceEnds (gaps (declarationHead name t).1.rest).rest with
      | true =>
        rw [hempty hends] at hpos
        cases hpos
      | false =>
        obtain ⟨⟨ys, hy, hys, hS⟩, _⟩ := hsome hends
        refine ⟨a :: b :: (ys ++ [c]), hx.trans (hy.trans hl), ?_, a, b, ys, c, rfl, ha, hb', hS,
          hmark⟩
        rw [hxs, hys, hps]
        simp
    · right
      simp only [hnone, List.append_nil]
      refine ⟨?_, hstop, hperiod⟩
      cases hends : sequenceEnds (gaps (declarationHead name t).1.rest).rest with
      | true =>
        rw [hempty hends]
        exact ⟨[a, b], hx, by rw [hxs, List.append_nil], .empty ha hb'⟩
      | false =>
        obtain ⟨⟨ys, hy, hys, hS⟩, _⟩ := hsome hends
        refine ⟨a :: b :: ys, hx.trans hy, ?_, .body ha hb' hS⟩
        rw [hxs, hys]
        simp

theorem declarationStep_sound (hs : StepScans block) (hb : BlockSound block B) {r : Reading}
    (hstep : declarationStep block p.scope s = some r) (hfirst : p = .first → (gaps s).pieces = [])
    (hc : Clean r.pieces) :
    Spells (fun xs => ∃ a b x c, xs = a :: b :: (x ++ [c]) ∧ spaced.declared p a ∧
        spaced.sign p b ∧ Sequence spaced B x ∧ spaced.mark .declarationSeparator c) s r ∨
      (Spells (Unfinished spaced B p) s r ∧ Stopped block p.scope r.rest) := by
  unfold declarationStep at hstep
  dsimp only at hstep
  split at hstep
  · cases hstep
  · rename_i hends
    have hne : (gaps s).rest ≠ [] := by simpa using hends
    split at hstep
    · cases hstep
    · cases hstep
      simp at hc
    · rename_i hscope
      split at hstep
      · rename_i hdecl
        cases hstep
        exact declaration_sound hs hb hne hfirst (fun _ => hdecl) (clean_append.mp hc).2
      · cases hstep
    · rename_i hscope
      cases hstep
      refine declaration_sound hs hb hne hfirst ?_ (clean_append.mp hc).2
      intro hp
      cases p with
      | top => exact absurd rfl hp
      | first => cases hscope
      | inner => cases hscope

/-- Declarations read without faults are finished, or the last of them is not and nothing is left to
read. -/
theorem declarations_sound (hs : StepScans block) (hb : BlockSound block B)
    (hscope : p.scope = scope) (hfirst : p = .first → (gaps s).pieces = [])
    (hc : Clean (declarations block scope s).pieces) :
    Spells (Declarations spaced B p) s (declarations block scope s) ∨
      (Spells (Unfinished spaced B p) s (declarations block scope s) ∧
        Stopped block scope (declarations block scope s).rest) := by
  refine Reading.many_induction (declarationStep_scans hs) (P := fun s r => ∀ p : Place,
    p.scope = scope → (p = .first → (gaps s).pieces = []) → Clean r.pieces →
      Spells (Declarations spaced B p) s r ∨
        (Spells (Unfinished spaced B p) s r ∧ Stopped block scope r.rest)) ?_ ?_ s p hscope hfirst hc
  · intro s _ p _ _ _
    exact Or.inl ⟨[], .nil s, rfl, .nil p⟩
  · rintro s r hstep ih p rfl hfirst hc
    simp only [Reading.andThen, clean_append] at hc ⊢
    rcases declarationStep_sound hs hb hstep hfirst hc.1 with
      ⟨xs, hx, hxs, a, b, x, c, rfl, ha, hb', hS, hmark⟩ | ⟨⟨xs, hx, hxs, hU⟩, hstop⟩
    · have hmore := ih p.next p.next_scope (fun hp => absurd hp p.next_ne_first) hc.2
      rcases hmore with ⟨ys, hy, hys, hD⟩ | ⟨⟨ys, hy, hys, hU⟩, hstop⟩
      · left
        refine ⟨a :: b :: (x ++ c :: ys), ?_, ?_, .cons ha hb' hS hmark hD⟩
        · simpa using hx.trans hy
        · simp [hxs, hys]
      · right
        refine ⟨⟨a :: b :: (x ++ c :: ys), ?_, ?_, .later ha hb' hS hmark hU⟩, hstop⟩
        · simpa using hx.trans hy
        · simp [hxs, hys]
    · right
      rw [Reading.many_of_none hstop.declarationStep]
      exact ⟨⟨xs, hx, by rw [hxs, List.append_nil], hU⟩, hstop⟩

theorem strayPeriodStep_sound {r : Reading} (h : strayPeriodStep block s = some r) :
    ¬Clean r.pieces := by
  unfold strayPeriodStep at h
  dsimp only at h
  split at h
  · cases h
  · split at h <;> cases h
    simp

theorem blockBody_sound (hs : StepScans block) (hb : BlockSound block B)
    (hc : Clean (blockBody block s).pieces) (hpos : 0 < (blockBody block s).commands) :
    Spells (fun xs => ∃ x y, xs = x ++ y ∧ Declarations spaced B .first x ∧
      Sequence spaced B y) s (blockBody block s) := by
  unfold blockBody at hc hpos ⊢
  dsimp only at hc hpos ⊢
  generalize hlocals : (if startsDeclaration s then declarations block .inner s
    else ⟨[], s, 0⟩ : Reading) = locals at hc hpos ⊢
  simp only [clean_append] at hc
  -- a period inside the block would have been marked
  have hmore : Reading.many (strayPeriodStep block) (sequence block .inner locals.rest).rest =
      ⟨[], (sequence block .inner locals.rest).rest, 0⟩ := by
    cases hstep : strayPeriodStep block (sequence block .inner locals.rest).rest with
    | none => exact Reading.many_of_none hstep
    | some r =>
      rw [Reading.many_of_some (strayPeriodStep_scans hs) hstep] at hc
      exact absurd (clean_append.mp hc.2).1 (strayPeriodStep_sound hstep)
  obtain ⟨hempty, hsome⟩ := sequence_sound hs hb hc.1.2
  have hends : sequenceEnds (gaps locals.rest).rest = false := by
    cases hends : sequenceEnds (gaps locals.rest).rest with
    | false => rfl
    | true =>
      rw [hmore, hempty hends] at hpos
      cases hpos
  obtain ⟨⟨ys, hy, hys, hS⟩, _⟩ := hsome hends
  have hdecls : Spells (Declarations spaced B .first) s locals := by
    split at hlocals
    · rename_i hstart
      subst hlocals
      obtain ⟨r, t, hname, _⟩ := startsDeclaration_iff.mp hstart
      have hgap : (gaps s).pieces = [] := by
        rw [gaps, Lexis.gaps_of_none (gap?_of_readName hname)]
      rcases declarations_sound (p := .first) hs hb rfl (fun _ => hgap) hc.1.1 with h | ⟨_, hstop⟩
      · exact h
      · have htrue := (sequenceStep_eq_none hstop.1).symm.trans hends
        cases htrue
    · subst hlocals
      exact ⟨[], .nil s, rfl, .nil _⟩
  obtain ⟨xs, hx, hxs, hD⟩ := hdecls
  rw [hmore]
  refine ⟨xs ++ ys, hx.trans hy, ?_, xs, ys, rfl, hD, hS⟩
  rw [hxs, hys, flatten_append, List.append_nil]

theorem nestedBlock_sound (hs : StepScans block) (hb : BlockSound block B)
    (hp : read? .openParen (gaps s).rest = some (w, t))
    (hc : Clean (nestedBlock block w t).pieces) :
    Spells (BlockOver spaced B) s ((nestedBlock block w t).after (gaps s).pieces) := by
  unfold nestedBlock at hc ⊢
  dsimp only at hc ⊢
  split at hc
  · rename_i close rest hclose
    split at hc
    · simp at hc
    · rename_i hpos
      obtain ⟨hbody, _⟩ := clean_append.mp (clean_append.mp (clean_cons.mp hc).2).1
      obtain ⟨xs, hx, hxs, x, y, rfl, hD, hS⟩ := blockBody_sound hs hb hbody (by omega)
      have hend := Laid.token hclose (by decide) (.nil rest)
      refine ⟨_, (hx.trans hend).token hp (by decide), ?_, ?_⟩
      · rw [if_neg hpos, Reading.after_pieces, hxs]
        simp
      · rw [List.append_assoc]
        exact .parens (mark_spaced rfl hp) hD hS (mark_spaced rfl hclose)
  · simp at hc

theorem ruleEnd_sound (hc : Clean (ruleEnd s).pieces) :
    (∃ x, Laid s [x] (ruleEnd s).rest ∧ (ruleEnd s).pieces = flatten [x] ∧
        spaced.mark .ruleSeparator x ∧ ruleSetEnds (gaps (ruleEnd s).rest).rest = false) ∨
      (ruleEnd s = ⟨[], s, 0⟩ ∧ ruleSetEnds (gaps s).rest = true) := by
  unfold ruleEnd at hc ⊢
  dsimp only at hc ⊢
  split at hc
  · rename_i comma rest hcomma
    left
    split at hc
    · rename_i hname
      obtain ⟨⟨r, t⟩, hr⟩ := Option.isSome_iff_exists.mp hname
      rw [read?_identifier] at hr
      exact ⟨_, .token hcomma (by decide) (.nil rest), by simp [hname], mark_spaced rfl hcomma,
        ruleSetEnds_of_readName hr⟩
    · simp at hc
  · split at hc
    · rename_i hends
      right
      exact ⟨by simp [hends], hends⟩
    · rename_i hends
      simp only [Reading.after_pieces, clean_append] at hc
      rw [recover_clean hc.2] at hends
      exact absurd rfl hends

theorem ruleStep_eq_none (h : ruleStep s = none) : ruleSetEnds (gaps s).rest = true := by
  unfold ruleStep at h
  dsimp only at h
  split at h
  · rename_i hends
    exact hends
  · split at h <;> cases h

theorem ruleStep_sound {r : Reading} (hstep : ruleStep s = some r) (hc : Clean r.pieces) :
    ruleSetEnds (gaps s).rest = false ∧
      ((Spells (fun xs => ∃ x y, xs = [x, y] ∧ spaced.name x ∧ spaced.mark .ruleSeparator y) s r ∧
          ruleSetEnds (gaps r.rest).rest = false) ∨
        (Spells (fun xs => ∃ x, xs = [x] ∧ spaced.name x) s r ∧
          ruleSetEnds (gaps r.rest).rest = true)) := by
  unfold ruleStep at hstep
  dsimp only at hstep
  split at hstep
  · cases hstep
  · rename_i hends
    have hends : ruleSetEnds (gaps s).rest = false := by simpa using hends
    refine ⟨hends, ?_⟩
    split at hstep
    · cases hstep
      have hnil := recover_clean (clean_append.mp hc).2
      rw [hnil] at hends
      cases hends
    · rename_i name rest hname
      cases hstep
      split at hc
      · simp at hc
      · rename_i hres
        have hres : isReserved (String.ofList name) = false := by simpa using hres
        rw [if_neg (by rw [hres]; decide)]
        have hx := name_spaced hname hres
        have hread : ∀ {t ys}, Laid rest ys t →
            Laid s (((gaps s).pieces, .token .identifier name) :: ys) t :=
          fun k => .cons rfl (reads_name hname fun h => by rw [hres] at h; cases h) k
        rcases ruleEnd_sound (clean_append.mp hc).2 with ⟨y, hy, hys, hmark, hnext⟩ | ⟨hnone, hdone⟩
        · left
          refine ⟨⟨[_, y], hread hy, ?_, _, y, rfl, hx, hmark⟩, hnext⟩
          simp [hys]
        · right
          rw [hnone]
          exact ⟨⟨[_], hread (.nil rest), by simp, _, rfl, hx⟩, hdone⟩

theorem rules_sound (hc : Clean (Reading.many ruleStep s).pieces) :
    (ruleSetEnds (gaps s).rest = true → Reading.many ruleStep s = ⟨[], s, 0⟩) ∧
      (ruleSetEnds (gaps s).rest = false → Spells (Names spaced) s (Reading.many ruleStep s)) := by
  revert hc
  refine Reading.many_induction ruleStep_scans (P := fun s r => Clean r.pieces →
    (ruleSetEnds (gaps s).rest = true → r = ⟨[], s, 0⟩) ∧
      (ruleSetEnds (gaps s).rest = false → Spells (Names spaced) s r)) ?_ ?_ s
  · intro s hstop _
    refine ⟨fun _ => rfl, ?_⟩
    intro hends
    rw [ruleStep_eq_none hstop] at hends
    cases hends
  · intro s r hstep ih hc
    simp only [Reading.andThen, clean_append] at hc ⊢
    obtain ⟨hends, hread⟩ := ruleStep_sound hstep hc.1
    obtain ⟨hstop, hnext⟩ := ih hc.2
    constructor
    · intro h
      rw [hends] at h
      cases h
    intro _
    rcases hread with ⟨⟨xs, hx, hxs, a, b, rfl, ha, hb⟩, hgo⟩ | ⟨⟨xs, hx, hxs, a, rfl, ha⟩, hdone⟩
    · obtain ⟨ys, hy, hys, hN⟩ := hnext hgo
      exact ⟨a :: b :: ys, hx.trans hy, by simp [hxs, hys], .more ha hb hN⟩
    · rw [hstop hdone]
      exact ⟨[a], hx, by rw [hxs, List.append_nil], .one ha⟩

theorem ruleSet_sound (hp : read? .openBrace (gaps s).rest = some (w, t))
    (hc : Clean (ruleSet w t).pieces) :
    Spells (BlockOver spaced B) s ((ruleSet w t).after (gaps s).pieces) := by
  unfold ruleSet at hc ⊢
  dsimp only at hc ⊢
  split at hc
  · rename_i close rest hclose
    obtain ⟨hrules, _⟩ := clean_append.mp (clean_append.mp (clean_cons.mp hc).2).1
    have hend := Laid.token hclose (by decide) (.nil rest)
    obtain ⟨hempty, hsome⟩ := rules_sound hrules
    cases hends : ruleSetEnds (gaps t).rest with
    | true =>
      rw [hempty hends] at hclose hend ⊢
      exact ⟨_, hend.token hp (by decide), by simp, .noRules (mark_spaced rfl hp)
        (mark_spaced rfl hclose)⟩
    | false =>
      obtain ⟨xs, hx, hxs, hN⟩ := hsome hends
      refine ⟨_, (hx.trans hend).token hp (by decide), ?_,
        .rules (mark_spaced rfl hp) hN (mark_spaced rfl hclose)⟩
      simp [hxs]
  · simp at hc

theorem wordBlock_sound (hk : read? .keyword (gaps s).rest = some (w, t)) {r : Reading}
    (hr : wordBlock w t = some r) (hc : Clean r.pieces) :
    Spells (BlockOver spaced B) s (r.after (gaps s).pieces) := by
  unfold wordBlock at hr
  dsimp only at hr
  split at hr
  · rename_i hword
    cases hr
    refine ⟨[_], .token hk (by decide) (.nil t), by simp, ?_⟩
    have hx : ∀ {v}, String.ofList w = v →
        spaced.keyword v ((gaps s).pieces, .token .keyword w) := by
      rintro v rfl
      exact ⟨by rw [String.toList_ofList], isGap_of_mem_gaps s⟩
    rcases hword with hword | hword
    · exact .skip (hx hword)
    · exact .fail (hx hword)
  · split at hr <;> cases hr
    simp at hc

end Productions

theorem block_sound_over {levels : Nat} {B : List Spaced → Prop}
    (hn : ∀ n, levels = n + 1 → BlockSound (block n) B) :
    BlockSound (block levels) (BlockOver spaced B) := by
  intro s r hr hc
  obtain ⟨r, h, rfl⟩ := Option.map_eq_some_iff.mp hr
  have hc := (clean_append.mp hc).2
  unfold block at h
  split at h
  · rename_i word rest hk
    exact wordBlock_sound hk h hc
  · split at h
    · rename_i paren rest hp
      cases levels with
      | zero =>
        cases h
        simp at hc
      | succ n =>
        cases h
        exact nestedBlock_sound (block_scans n) (hn n rfl) hp hc
    · split at h
      · rename_i brace rest hbr
        cases h
        exact ruleSet_sound hbr hc
      · split at h
        · rename_i hk _ _ _ _ _ name rest hname
          cases h
          have hres : isReserved (String.ofList name) = false := (clean_cons.mp hc).1 rfl
          exact ⟨[((gaps s).pieces, .token .identifier name)],
            .cons rfl (reads_name hname fun _ => hk) (.nil rest), by simp,
            .name (name_spaced hname hres)⟩
        · cases h

theorem block_sound (levels : Nat) : BlockSound (block levels) (Block spaced levels) := by
  induction levels with
  | zero => exact block_sound_over fun n h => absurd h (Nat.succ_ne_zero n).symm
  | succ n ih =>
    refine block_sound_over ?_
    intro m hm
    cases hm
    exact ih

/-- A reserved word is taken for a name only where a word character that belongs to no name stops it
from being read as a keyword. -/
theorem stuck_of_reserved {s r t : List Char} (h : Reads recast s (.token .identifier r : Piece) t)
    (hres : isReserved (String.ofList r) = true) :
    ∃ a u, t = a :: u ∧ Text.isWordChar a = true ∧ Lexis.isNamePart a = false := by
  obtain ⟨_, hread, rfl, hkey⟩ := recast_of_reads (by decide) h
  rw [read?_identifier] at hread
  have hend : Text.wordEnds t ≠ true := by
    intro hend
    have hk := hkey hres
    rw [read?_keyword.mpr ⟨hread, hres, hend⟩] at hk
    cases hk
  cases t with
  | nil => exact absurd rfl hend
  | cons a u =>
    have hword : Text.isWordChar a = true := by simpa [Text.wordEnds] using hend
    exact ⟨a, u, rfl, hword, (Lexis.readName_eq_some_iff.mp hread).2.1 a rfl⟩

/-- The character that keeps a reserved word from being read as a keyword is in error. -/
theorem reserved_stuck {s r t : List Char} (h : Reads recast s (.token .identifier r : Piece) t)
    (hres : isReserved (String.ofList r) = true) {ps : List Piece} (k : Scan recast t ps []) :
    ∃ f u, Lexis.Piece.fault f u ∈ ps := by
  obtain ⟨a, u, rfl, hword, hpart⟩ := stuck_of_reserved h hres
  cases k with
  | cons hp _ =>
    obtain ⟨f, v, rfl⟩ := reads_stuck hword hpart hp
    exact ⟨f, v, List.mem_cons_self⟩

theorem clean_of_scan {s : List Char} {ps : List Piece} (h : Scan recast s ps [])
    (hfaults : ∀ f r, Lexis.Piece.fault f r ∉ ps) : Clean ps := by
  generalize hu : ([] : List Char) = u at h
  induction h with
  | nil => exact List.forall_mem_nil _
  | @cons s p t ps u hp h ih =>
    subst hu
    refine clean_cons.mpr ⟨?_, ih (fun f r hm => hfaults f r (List.mem_cons_of_mem _ hm)) rfl⟩
    cases p with
    | blank r => trivial
    | fault f r => exact hfaults f r List.mem_cons_self
    | token c r =>
      rintro rfl
      cases hres : isReserved (String.ofList r) with
      | false => rfl
      | true =>
        obtain ⟨f, v, hm⟩ := reserved_stuck hp hres h
        exact absurd (List.mem_cons_of_mem _ hm) (hfaults f v)

theorem no_fault_of_no_errors {start : Nat} {ps : List Piece}
    (h : Tokens.hasErrors (Lexis.layOut start ps).toArray = false) (f : Fault) (r : List Char) :
    Lexis.Piece.fault f r ∉ ps := by
  intro hm
  obtain ⟨before, after, rfl⟩ := List.append_of_mem hm
  obtain ⟨t, ht⟩ : ∃ t, Lexis.Piece.token? (start + Text.byteLength (Lexis.Piece.text before))
      (.fault f r : Piece) = some t := ⟨_, rfl⟩
  have herr : t.isError = false := by
    have hall : ∀ t ∈ Lexis.layOut start (before ++ Lexis.Piece.fault f r :: after),
        t.isError = false := by simpa [Tokens.hasErrors] using h
    exact hall t (Lexis.mem_layOut.mpr ⟨before, _, after, rfl, ht⟩)
  cases ht
  cases herr

theorem pieces_sound {s : List Char} (hc : Clean (pieces s)) :
    ∃ xs, Laid s xs (declarations (block maxNesting) .top s).rest ∧
      pieces s = flatten xs ++ (gaps (declarations (block maxNesting) .top s).rest).pieces ∧
      IsLenientProgram spaced xs := by
  have hscope : Place.top.scope = .top := rfl
  have hread := declarations_sound (block_scans maxNesting) (block_sound maxNesting) hscope
    (fun hp => by cases hp) (clean_append.mp hc).1
  unfold pieces
  rcases hread with ⟨xs, hx, hxs, hD⟩ | ⟨⟨xs, hx, hxs, hU⟩, _⟩
  · exact ⟨xs, hx, by rw [← hxs], Or.inl hD⟩
  · exact ⟨xs, hx, by rw [← hxs], Or.inr hU⟩

/-- A text without errors is a program: its tokens, the comments left out, are derived by the
grammar, where only the last declaration may lack its period and, lacking it, its body. -/
theorem program_of_no_errors (text : String) (h : Tokens.hasErrors (tokens text) = false) :
    IsLenientProgram lexemes (significant (tokens text)) := by
  have hc : Clean (pieces text.toList) :=
    clean_of_scan (scan_pieces text.toList) (no_fault_of_no_errors h)
  obtain ⟨xs, hx, hxs, hP⟩ := pieces_sound hc
  unfold tokens
  rw [significant_layOut, hxs, List.filterMap_append, filterMap_gap (isGap_of_mem_gaps _),
    List.append_nil, hx.filterMap_flatten]
  exact hP.rewrite spaced_keeps (hx.bared_rewrites)

/-- A text with local declarations and a comment, its last period missing. -/
theorem program_of_no_errors_unfinished :
    Tokens.hasErrors (tokens "a = b. c = (m = r. m!; \x7bd, e\x7d) or skip /* end */") = false ∧
      IsLenientProgram lexemes
        (significant (tokens "a = b. c = (m = r. m!; \x7bd, e\x7d) or skip /* end */")) :=
  have h : Tokens.hasErrors (tokens "a = b. c = (m = r. m!; \x7bd, e\x7d) or skip /* end */") =
      false := by decide +kernel
  ⟨h, program_of_no_errors _ h⟩

end GraphScribe.Program
