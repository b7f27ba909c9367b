import GraphScribe.Proofs.Program.Completeness
import GraphScribe.Proofs.Program.Sequel

/-! # Productions side by side

Every production takes the same branch on a text that ends with a period and on that text with its
sequel. Productions that cannot take a period stop before the last one; the others may meet it, and
then nothing that is still open reads on. -/
namespace GraphScribe.Program

open Lexis (Reads Scan gap? readName)

section Idle

variable {block : BlockReader} {scope : Scope}

theorem keyword?_nil (w : String) : keyword? w [] = none :=
  keyword?_of_none (read?_keyword_of_readName rfl)

theorem keywordPast_declines (w : String) : Declines (keywordPast w) := by
  intro s hs
  simp [Program.keywordPast, hs, keyword?_nil]

theorem elseBranch_idle : Idle (elseBranch block) := by
  intro s hs
  simp [elseBranch, keywordPast_declines _ s hs]

theorem blockTail_idle : Idle (blockTail block) := by
  intro s hs
  simp [blockTail, hs, read?_mark_nil (c := .repetition) rfl, keyword?_nil]

theorem commandEnd_idle : Idle commandEnd := by
  intro s hs
  simp [commandEnd, hs, read?_mark_nil (c := .statementSeparator) rfl, sequenceEnds]

theorem sequenceStep_declines : Declines (sequenceStep block scope) := by
  intro s hs
  simp [sequenceStep, hs]

theorem sequence_idle : Idle (sequence block scope) := idle_many sequenceStep_declines

theorem strayPeriodStep_declines : Declines (strayPeriodStep block) := by
  intro s hs
  simp [strayPeriodStep, hs, read?_mark_nil (c := .declarationSeparator) rfl]

theorem declarationStep_declines : Declines (declarationStep block scope) := by
  intro s hs
  simp [declarationStep, hs]

theorem declarationEnd_idle (name : List Char) (hasSign : Bool) (c : Nat) :
    Idle (declarationEnd name hasSign c) := by
  intro s hs
  simp [declarationEnd, hs, read?_mark_nil (c := .declarationSeparator) rfl]

end Idle

theorem rel_map {α β : Type} {R : α → α → Prop} {S : β → β → Prop} {f g : α → β} {x y : Option α}
    (h : Option.Rel R x y) (hf : ∀ a b, R a b → S (f a) (g b)) :
    Option.Rel S (x.map f) (y.map g) := by
  cases h with
  | some h => exact .some (hf _ _ h)
  | none => exact .none

namespace Sequel

variable {k : Sequel} {n : Nat} {block : BlockReader} {scope : Scope} {s t : List Char}

theorem Pending.read? {c : Category} {r : List Char} (h : k.Pending s)
    (hr : read? c s = some (r, t)) (hc : c ≠ .declarationSeparator) : k.Pending t := by
  refine h.step_of_ne (reads_fault (f := .strayPeriod) hr) ?_
  rintro rfl
  rcases read?_cases hr with ⟨_, hname⟩ | ⟨a, ha, hrun, rfl⟩
  · exact absurd (Lexis.readName_eq_some_iff.mp hname).1 (by decide)
  · obtain rfl := List.singleton_inj.mp hrun
    exact hc (mark?_injective ha rfl)

theorem Pending.keyword? {w : String} {r : List Char} (h : k.Pending s)
    (hr : keyword? w s = some (r, t)) : k.Pending t :=
  h.read? (keyword?_eq_some hr).1 (by decide)

theorem Pending.keywordPast_stretch (h : k.Pending s) (w : String) :
    keywordPast w (s ++ k.text) = (keywordPast w s).map fun g => (g.1, k.stretch g.2) := by
  unfold keywordPast
  rw [h.gaps_stretch]
  dsimp only
  rw [h.gaps.keyword?_stretch, Option.map_map, Option.map_map]
  rfl

theorem Pending.keywordPast {w : String} {g : List Piece} {r : List Char} (h : k.Pending s)
    (hr : keywordPast w s = some (g, r, t)) : k.Pending t :=
  h.gaps.keyword? (keywordPast_eq_some hr).2

theorem Pending.recover_stays (h : k.Pending s) (hs : gap? (κ := Category) (φ := Fault) s = none)
    (hperiod : Program.starts .declarationSeparator s = false) (e : Expectation) :
    k.Stays (recover e s) (recover e (s ++ k.text)) := by
  unfold recover
  rw [h.readStray_stretch]
  cases hr : Lexis.readStray s with
  | none => exact h.stays [] 0
  | some cut =>
    obtain ⟨r, t⟩ := cut
    refine Pending.stays (h.step_of_ne (.stray (f := .strayPeriod) hs hr) ?_) _ 0
    rintro rfl
    have happ := Lexis.readStray_append hr
    rw [← happ] at hperiod
    simp [Program.starts, (read?_mark (c := .declarationSeparator) rfl).mpr ⟨rfl, rfl⟩] at hperiod

theorem blockPast_tracks (hb : k.TracksStep n block) : k.TracksStep n (blockPast block) := by
  intro s hs
  unfold blockPast
  rw [hs.gaps_stretch]
  exact rel_map (hb _ hs.gaps) fun _ _ h => h.after _

theorem clause_tracks (hb : k.TracksStep n block) (word : List Char) (missing : Fault) :
    k.Tracks n (clause block word missing) := by
  intro s hs
  have hrel := blockPast_tracks hb s hs
  unfold clause
  generalize blockPast block s = x at hrel ⊢
  generalize blockPast block (s ++ k.text) = y at hrel ⊢
  cases hrel with
  | some h => exact h.after _
  | none => exact (hs.stays _ 0).carries n

theorem elseBranch_tracks (hb : k.TracksStep n block) : k.Tracks n (elseBranch block) := by
  intro s hs
  unfold elseBranch
  rw [hs.keywordPast_stretch]
  cases hk : keywordPast "else" s with
  | none => exact (hs.stays [] 0).carries n
  | some g => exact (clause_tracks hb _ _ _ (hs.keywordPast hk)).after _

theorem thenBranch_tracks (hb : k.TracksStep n block) (word : List Char) :
    k.Tracks n (thenBranch block word) := by
  intro s hs
  have hrel := blockPast_tracks hb s hs
  unfold thenBranch
  generalize blockPast block s = x at hrel ⊢
  generalize blockPast block (s ++ k.text) = y at hrel ⊢
  cases hrel with
  | some h => exact (h.andThen (elseBranch_tracks hb) elseBranch_idle).after _
  | none => exact (hs.stays _ 0).carries n

theorem then_carries (hb : k.TracksStep n block) {r r' : Reading} (h : k.Carries n r r')
    (lead other : Piece) :
    k.Carries n
      (match keywordPast "then" r.rest with
        | some (gap, next, rest) =>
          (thenBranch block next rest).after (lead :: r.pieces ++ gap)
        | none => r.after [other])
      (match keywordPast "then" r'.rest with
        | some (gap, next, rest) =>
          (thenBranch block next rest).after (lead :: r'.pieces ++ gap)
        | none => r'.after [other]) := by
  rcases h with ⟨hr, rfl⟩ | ⟨hr, h⟩
  · simp only [extend, hr.keywordPast_stretch]
    cases hk : keywordPast "then" r.rest with
    | none => exact ((hr.stays _ _).after _).carries n
    | some g => exact (thenBranch_tracks hb _ _ (hr.keywordPast hk)).after _
  · rw [hr, keywordPast_declines _ _ gaps_blanks_rest]
    refine Or.inr ⟨hr, fun hn => ?_⟩
    rw [Reading.after_pieces, parens_append] at hn
    rw [h (by omega)]
    simp [keywordPast_declines _ _ k.ended, Reading.after]

theorem conditional_tracks (hb : k.TracksStep n block) (word : List Char) :
    k.Tracks n (conditional block word) := by
  intro s hs
  have hrel := blockPast_tracks hb s hs
  unfold conditional
  generalize blockPast block s = x at hrel ⊢
  generalize blockPast block (s ++ k.text) = y at hrel ⊢
  cases hrel with
  | some h => exact then_carries hb h _ _
  | none => exact (hs.stays _ 0).carries n

theorem attempt_tracks (hb : k.TracksStep n block) (word : List Char) :
    k.Tracks n (attempt block word) := by
  intro s hs
  have hrel := blockPast_tracks hb s hs
  unfold attempt
  generalize blockPast block s = x at hrel ⊢
  generalize blockPast block (s ++ k.text) = y at hrel ⊢
  cases hrel with
  | some h => exact then_carries hb h _ _
  | none => exact (hs.stays _ 0).carries n

theorem blockTail_tracks (hb : k.TracksStep n block) : k.Tracks n (blockTail block) := by
  intro s hs
  have hg := hs.gaps
  unfold blockTail
  rw [hs.gaps_stretch]
  dsimp only
  rw [hg.read?_stretch, hg.keyword?_stretch]
  cases hm : Program.read? .repetition (gaps s).rest with
  | some mark => exact ((hg.read? hm (by decide)).stays _ 0).carries n
  | none =>
    cases hk : Program.keyword? "or" (gaps s).rest with
    | some word => exact (clause_tracks hb _ _ _ (hg.keyword? hk)).after _
    | none => exact (hs.stays [] 0).carries n

theorem command_carries (hb : k.TracksStep n block) (hs : k.Pending s)
    (hgap : gap? (κ := Category) (φ := Fault) s = none)
    (hperiod : Program.starts .declarationSeparator s = false) :
    k.Carries n (command block s) (command block (s ++ k.text)) := by
  have hrel := hb s hs
  unfold command
  rw [hs.keyword?_stretch, hs.keyword?_stretch]
  cases hif : Program.keyword? "if" s with
  | some word => exact conditional_tracks hb _ _ (hs.keyword? hif)
  | none =>
    cases htry : Program.keyword? "try" s with
    | some word => exact attempt_tracks hb _ _ (hs.keyword? htry)
    | none =>
      simp only [Option.map_none]
      generalize block s = x at hrel ⊢
      generalize block (s ++ k.text) = y at hrel ⊢
      cases hrel with
      | some h => exact h.andThen (blockTail_tracks hb) blockTail_idle
      | none => exact (hs.recover_stays hgap hperiod _).carries n

theorem starts_of_sequenceEnds (h : sequenceEnds s = false) :
    Program.starts .declarationSeparator s = false := by
  simp only [sequenceEnds, Bool.or_eq_false_iff] at h
  exact h.1.2

theorem commandEnd_stays (hs : k.Pending s) :
    k.Stays (commandEnd s) (commandEnd (s ++ k.text)) := by
  have hg := hs.gaps
  unfold commandEnd
  rw [hs.gaps_stretch]
  dsimp only
  rw [hg.read?_stretch, hg.sequenceEnds_stretch]
  cases hm : Program.read? .statementSeparator (gaps s).rest with
  | some mark =>
    have hrest := hg.read? hm (by decide)
    simp only [Option.map_some, stretch, hrest.gaps_stretch, hrest.gaps.sequenceEnds_stretch]
    exact hrest.stays _ 0
  | none =>
    cases hends : sequenceEnds (gaps s).rest with
    | true => exact hs.stays [] 0
    | false =>
      exact (hg.recover_stays (gap?_rest_gaps s) (starts_of_sequenceEnds hends) _).after _

theorem sequenceStep_tracks (hb : k.TracksStep n block) :
    k.TracksStep n (sequenceStep block scope) := by
  intro s hs
  have hg := hs.gaps
  unfold sequenceStep
  rw [hs.gaps_stretch]
  dsimp only
  rw [hg.starts_stretch, hg.read?_stretch, hg.read?_stretch]
  have hne : ((gaps s).rest ++ k.text).isEmpty = false := by simp [hg.ne_nil]
  rw [hne, hg.isEmpty, Bool.false_or]
  cases hperiod : Program.starts .declarationSeparator (gaps s).rest with
  | true => exact .none
  | false =>
    cases hclose : Program.read? .closeParen (gaps s).rest with
    | some close =>
      cases scope with
      | top => exact .some (((hg.read? hclose (by decide)).stays _ 0).carries n)
      | inner => exact .none
    | none =>
      cases hm : Program.read? .statementSeparator (gaps s).rest with
      | some mark => exact .some (((hg.read? hm (by decide)).stays _ 0).carries n)
      | none =>
        have hcommand := command_carries hb hg (gap?_rest_gaps s) hperiod
        have hread := hcommand.andThen_of (fun h => (commandEnd_stays h).carries n) commandEnd_idle
        exact .some ((hread.after _).commands 1)

theorem sequence_tracks (hs : StepScans block) (hb : k.TracksStep n block) :
    k.Tracks n (sequence block scope) :=
  many_tracks (sequenceStep_scans hs) (sequenceStep_tracks hb) sequenceStep_declines

theorem declarationHead_stays (hs : k.Pending s) (name : List Char) :
    k.Stays (declarationHead name s).1 (declarationHead name (s ++ k.text)).1 ∧
      (declarationHead name (s ++ k.text)).2 = (declarationHead name s).2 := by
  have hg := hs.gaps
  unfold declarationHead
  rw [hs.gaps_stretch]
  dsimp only
  rw [hg.read?_stretch]
  cases hsign : Program.read? .declarationOperator (gaps s).rest with
  | some sign => exact ⟨(hg.read? hsign (by decide)).stays _ 0, rfl⟩
  | none => exact ⟨hs.stays _ 0, rfl⟩

/-- The end of a declaration may be the last period. -/
theorem declarationEnd_ends (hs : k.Pending s) (name : List Char) (hasSign : Bool) (c : Nat) :
    k.Stays (declarationEnd name hasSign c s) (declarationEnd name hasSign c (s ++ k.text)) ∨
      k.Finishes (declarationEnd name hasSign c s)
        (declarationEnd name hasSign c (s ++ k.text)) := by
  have hg := hs.gaps
  unfold declarationEnd
  rw [hs.gaps_stretch]
  dsimp only
  rw [hg.read?_stretch]
  cases hp : Program.read? .declarationSeparator (gaps s).rest with
  | some period =>
    rcases hg.step (reads_fault (f := .strayPeriod) hp) with hrest | ⟨_, hrest⟩
    · exact Or.inl (hrest.stays _ 0)
    · exact Or.inr ⟨hrest, rfl⟩
  | none => exact Or.inl (hs.stays [] 0)

theorem body_ends {r r' : Reading} (h : k.Carries n r r') (name : List Char) (hasSign : Bool) :
    k.Carries n (r.andThen (declarationEnd name hasSign r.commands))
        (r'.andThen (declarationEnd name hasSign r'.commands)) ∨
      k.Finishes (r.andThen (declarationEnd name hasSign r.commands))
        (r'.andThen (declarationEnd name hasSign r'.commands)) := by
  rcases h with ⟨hr, rfl⟩ | ⟨hr, h⟩
  · -- the body stopped before the last period, which may be the one that ends its declaration
    rcases declarationEnd_ends hr name hasSign r.commands with hend | ⟨hrest, heq⟩
    · exact Or.inl (Stays.carries (Stays.andThen ⟨hr, rfl⟩ hend) n)
    · exact Or.inr ⟨hrest, by simp only [Reading.andThen, extend, heq]⟩
  · have hstop : declarationEnd name hasSign r.commands r.rest = ⟨[], r.rest, 0⟩ :=
      declarationEnd_idle _ _ _ _ (by rw [hr]; exact gaps_blanks_rest)
    refine Or.inl (Or.inr ⟨by rw [Reading.andThen, hstop]; exact hr, fun hn => ?_⟩)
    simp only [Reading.andThen, hstop, List.append_nil] at hn
    rw [h hn]
    simp [Reading.andThen, hstop, declarationEnd_idle _ _ _ _ k.ended]

/-- A declaration, or the token in error in the place of one, may end with the last period. -/
theorem declaration_ends (scope : Scope) (hss : StepScans block) (hb : k.TracksStep n block)
    (hs : k.Pending s) (hgap : gap? (κ := Category) (φ := Fault) s = none) :
    k.Carries n (declaration block scope s) (declaration block scope (s ++ k.text)) ∨
      k.Finishes (declaration block scope s) (declaration block scope (s ++ k.text)) := by
  unfold declaration
  rw [hs.read?_stretch]
  cases hname : Program.read? .identifier s with
  | none =>
    unfold recover
    rw [hs.readStray_stretch]
    cases hr : Lexis.readStray s with
    | none => exact Or.inl ((hs.stays [] 0).carries n)
    | some cut =>
      rcases hs.step (.stray (f := .strayPeriod) hgap hr) with hrest | ⟨_, hrest⟩
      · exact Or.inl ((hrest.stays _ 0).carries n)
      · exact Or.inr ⟨hrest, rfl⟩
  | some name =>
    obtain ⟨hhead, hsign⟩ := declarationHead_stays (hs.read? hname (by decide)) name.1
    simp only [Option.map_some, stretch, hsign]
    have hsequence : k.Tracks n (sequence block scope) := sequence_tracks hss hb
    have hbody := (hhead.carries n).andThen hsequence sequence_idle
    exact body_ends hbody _ _

theorem declarationStep_ends (scope : Scope) (hss : StepScans block) (hb : k.TracksStep n block)
    (hs : k.Pending s) :
    Option.Rel (fun r r' => k.Carries n r r' ∨ k.Finishes r r') (declarationStep block scope s)
      (declarationStep block scope (s ++ k.text)) := by
  have hg := hs.gaps
  have hdecl := declaration_ends scope hss hb hg (gap?_rest_gaps s)
  unfold declarationStep
  rw [hs.gaps_stretch]
  dsimp only
  have hne : ((gaps s).rest ++ k.text).isEmpty = false := by simp [hg.ne_nil]
  rw [hne, hg.isEmpty, hg.read?_stretch, hg.startsDeclaration_stretch]
  have hafter := hdecl.imp (·.after (gaps s).pieces) (·.after (gaps s).pieces)
  cases hclose : Program.read? .closeParen (gaps s).rest with
  | some close =>
    cases scope with
    | top => exact .some (Or.inl (((hg.read? hclose (by decide)).stays _ 0).carries n))
    | inner => exact .none
  | none =>
    cases scope with
    | top => exact .some hafter
    | inner =>
      cases hstart : startsDeclaration (gaps s).rest with
      | true => exact .some hafter
      | false => exact .none

/-- The declarations of a scope, with the sequel read as declarations of that scope too. How many
commands they have is no matter. -/
theorem declarations_carries (hss : StepScans block) (hb : k.TracksStep n block)
    (hreads : k.need ≤ n → ∃ c, declarations block scope (k.blanks ++ k.text) =
      ⟨k.pieces, k.rest, c⟩) (hs : k.Pending s) :
    k.Carries n (declarations block scope s).uncounted
      (declarations block scope (s ++ k.text)).uncounted := by
  have hsteps : StepScans (declarationStep block scope) := declarationStep_scans hss
  revert hs
  refine Reading.many_induction hsteps (P := fun s r => k.Pending s →
    k.Carries n r.uncounted (declarations block scope (s ++ k.text)).uncounted) ?_ ?_ s
  · intro s hnone hs
    have hrel := declarationStep_ends scope hss hb hs
    rw [hnone] at hrel
    generalize hmore : declarationStep block scope (s ++ k.text) = x at hrel
    cases hrel
    rw [declarations, Reading.many_of_none hmore]
    exact (hs.stays [] 0).carries n
  · intro s r hstep ih hs
    have hrel := declarationStep_ends scope hss hb hs
    rw [hstep] at hrel
    generalize hmore : declarationStep block scope (s ++ k.text) = x at hrel
    cases hrel with
    | some hr =>
      rw [declarations, Reading.many_of_some hsteps hmore]
      rcases hr with hr | ⟨hr, rfl⟩
      · have hidle : Idle fun s => (declarations block scope s).uncounted :=
          fun s hs => congrArg Reading.uncounted (idle_many declarationStep_declines s hs)
        exact hr.uncounted.andThen_of (f := fun s => (declarations block scope s).uncounted) ih
          hidle
      · -- the declaration took the last period: alone the scope ends here, and with the sequel its
        -- declarations go on in this scope
        have hstop : Reading.many (declarationStep block scope) r.rest = ⟨[], r.rest, 0⟩ :=
          idle_many declarationStep_declines _ (by rw [hr]; exact gaps_blanks_rest)
        simp only [Reading.uncounted, Reading.andThen, hstop, List.append_nil]
        refine Or.inr ⟨hr, fun hn => ?_⟩
        obtain ⟨c, hc⟩ := hreads (by omega)
        rw [declarations] at hc
        simp only [extend, hr, hc]

theorem starts_of_ruleSetEnds (h : ruleSetEnds s = false) :
    Program.starts .declarationSeparator s = false := by
  simp only [ruleSetEnds, Bool.or_eq_false_iff] at h
  exact starts_of_sequenceEnds h.1.1

theorem ruleEnd_stays (hs : k.Pending s) : k.Stays (ruleEnd s) (ruleEnd (s ++ k.text)) := by
  have hg := hs.gaps
  unfold ruleEnd
  rw [hs.gaps_stretch]
  dsimp only
  rw [hg.read?_stretch, hg.ruleSetEnds_stretch]
  cases hm : Program.read? .ruleSeparator (gaps s).rest with
  | some comma =>
    have hrest := hg.read? hm (by decide)
    simp only [Option.map_some, stretch, hrest.gaps_stretch, hrest.gaps.starts_stretch]
    exact hrest.stays _ 0
  | none =>
    cases hends : ruleSetEnds (gaps s).rest with
    | true => exact hs.stays [] 0
    | false => exact (hg.recover_stays (gap?_rest_gaps s) (starts_of_ruleSetEnds hends) _).after _

theorem ruleStep_stays (hs : k.Pending s) :
    Option.Rel k.Stays (ruleStep s) (ruleStep (s ++ k.text)) := by
  have hg := hs.gaps
  unfold ruleStep
  rw [hs.gaps_stretch]
  dsimp only
  rw [hg.read?_stretch, hg.ruleSetEnds_stretch]
  cases hends : ruleSetEnds (gaps s).rest with
  | true => exact .none
  | false =>
    cases hname : Program.read? .identifier (gaps s).rest with
    | none =>
      exact .some ((hg.recover_stays (gap?_rest_gaps s) (starts_of_ruleSetEnds hends) _).after _)
    | some name => exact .some ((ruleEnd_stays (hg.read? hname (by decide))).after _)

/-- A rule set never reaches the last period. -/
theorem rules_stay (hs : k.Pending s) :
    k.Stays (Reading.many ruleStep s) (Reading.many ruleStep (s ++ k.text)) := by
  revert hs
  refine Reading.many_induction ruleStep_scans (P := fun s r => k.Pending s →
    k.Stays r (Reading.many ruleStep (s ++ k.text))) ?_ ?_ s
  · intro s hnone hs
    have hrel := ruleStep_stays hs
    rw [hnone] at hrel
    generalize hmore : ruleStep (s ++ k.text) = x at hrel
    cases hrel
    rw [Reading.many_of_none hmore]
    exact hs.stays [] 0
  · intro s r hstep ih hs
    have hrel := ruleStep_stays hs
    rw [hstep] at hrel
    generalize hmore : ruleStep (s ++ k.text) = x at hrel
    cases hrel with
    | some hr =>
      rw [Reading.many_of_some ruleStep_scans hmore]
      exact hr.andThen (ih hr.1)

theorem ruleSet_stays (hs : k.Pending s) (brace : List Char) :
    k.Stays (ruleSet brace s) (ruleSet brace (s ++ k.text)) := by
  obtain ⟨hrules, heq⟩ := rules_stay hs
  have hg := hrules.gaps
  unfold ruleSet
  rw [heq]
  simp only [extend, hrules.gaps_stretch, hg.read?_stretch]
  cases hclose : Program.read? .closeBrace (gaps (Reading.many ruleStep s).rest).rest with
  | some close => exact (hg.read? hclose (by decide)).stays _ 0
  | none => exact hrules.stays _ 0

/-- The last period is no stray one: a declaration or nothing follows it. -/
theorem strayPeriodStep_tracks (hss : StepScans block) (hb : k.TracksStep n block) :
    k.TracksStep n (strayPeriodStep block) := by
  intro s hs
  have hg := hs.gaps
  unfold strayPeriodStep
  rw [hs.gaps_stretch]
  dsimp only
  rw [hg.read?_stretch]
  cases hp : Program.read? .declarationSeparator (gaps s).rest with
  | none => exact .none
  | some period =>
    simp only [Option.map_some, stretch]
    rcases hg.step (reads_fault (f := .strayPeriod) hp) with hrest | ⟨_, hrest⟩
    · have hne : (Text.dropBlank period.2 ++ k.text).isEmpty = false := by
        simp [hrest.dropBlank.ne_nil]
      rw [hrest.dropBlank_stretch, hne, hrest.dropBlank.isEmpty,
        hrest.dropBlank.startsDeclaration_stretch]
      cases hstart : startsDeclaration (Text.dropBlank period.2) with
      | true => exact .none
      | false => exact .some ((sequence_tracks hss hb _ hrest).after _)
    · have hblank : Text.dropBlank k.blanks = [] := by
        have hdrop := Lexis.dropBlank_append k.blank []
        rwa [List.append_nil] at hdrop
      rw [hrest, k.starts, hblank, Bool.or_true]
      exact .none

theorem blockBody_eq (s : List Char) : blockBody block s =
    (((if startsDeclaration s then (declarations block .inner s).uncounted
        else ⟨[], s, 0⟩ : Reading).andThen (sequence block .inner)).andThen
      (Reading.many (strayPeriodStep block))) := by
  unfold blockBody
  split <;> simp [Reading.andThen, Reading.uncounted]

theorem blockBody_tracks (hss : StepScans block) (hb : k.TracksStep n block)
    (hreads : k.need ≤ n → ∃ c, declarations block .inner (k.blanks ++ k.text) =
      ⟨k.pieces, k.rest, c⟩) : k.Tracks n (blockBody block) := by
  intro s hs
  rw [blockBody_eq, blockBody_eq, hs.startsDeclaration_stretch]
  have hmore := many_tracks (strayPeriodStep_scans hss) (strayPeriodStep_tracks hss hb)
    strayPeriodStep_declines
  refine Carries.andThen ?_ hmore (idle_many strayPeriodStep_declines)
  refine Carries.andThen ?_ (sequence_tracks hss hb) sequence_idle
  split
  · exact declarations_carries hss hb hreads hs
  · exact (hs.stays [] 0).carries n

theorem nestedBlock_tracks (hss : StepScans block) (hb : k.TracksStep n block)
    (hreads : k.need ≤ n → ∃ c, declarations block .inner (k.blanks ++ k.text) =
      ⟨k.pieces, k.rest, c⟩) : k.Tracks (n + 1) (nestedBlock block ['(']) := by
  intro s hs
  unfold nestedBlock
  dsimp only
  rcases blockBody_tracks hss hb hreads s hs with ⟨hr, heq⟩ | ⟨hr, h⟩
  · have hg := hr.gaps
    rw [heq]
    simp only [extend, hr.gaps_stretch, hg.read?_stretch]
    cases hclose : Program.read? .closeParen (gaps (blockBody block s).rest).rest with
    | some close => exact ((hg.read? hclose (by decide)).stays _ 0).carries _
    | none => exact (hr.stays _ 0).carries _
  · -- the block is not closed, and its parenthesis, now in error, counts for one level
    have hnone : Program.read? .closeParen [] = none := read?_mark_nil rfl
    simp only [hr, gaps_blanks_rest, hnone]
    refine Or.inr ⟨rfl, fun hn => ?_⟩
    simp only [parens, List.countP_cons, Lexis.Piece.run_fault, decide_true, if_true] at hn
    have hneed : k.need ≤ n - parens (blockBody block s).pieces := by
      unfold parens
      omega
    rw [h hneed]
    simp only [k.ended, hnone, List.cons_append]

theorem wordBlock_stays (hs : k.Pending s) (word : List Char) :
    Option.Rel k.Stays (wordBlock word s) (wordBlock word (s ++ k.text)) := by
  unfold wordBlock
  dsimp only
  split
  · exact .some (hs.stays _ 0)
  · split
    · exact .some (hs.stays _ 0)
    · exact .none

/-- Blocks of `levels` levels, given those in parentheses. -/
theorem block_tracks_over {levels : Nat}
    (hn : ∀ m, levels = m + 1 → k.Tracks levels (nestedBlock (Program.block m) ['('])) :
    k.TracksStep levels (Program.block levels) := by
  intro s hs
  unfold Program.block
  rw [hs.read?_stretch, hs.read?_stretch, hs.read?_stretch, hs.read?_stretch]
  cases hk : Program.read? .keyword s with
  | some word =>
    have hrel := wordBlock_stays (hs.read? hk (by decide)) word.1
    simp only [Option.map_some, stretch]
    generalize wordBlock word.1 word.2 = x at hrel ⊢
    generalize wordBlock word.1 (word.2 ++ k.text) = y at hrel ⊢
    cases hrel with
    | some h => exact .some (h.carries _)
    | none => exact .none
  | none =>
    cases hp : Program.read? .openParen s with
    | some paren =>
      obtain ⟨r, t⟩ := paren
      have ht := hs.read? hp (by decide)
      obtain ⟨rfl, _⟩ := (read?_mark rfl).mp hp
      cases levels with
      | zero => exact .some ((ht.stays _ 0).carries _)
      | succ m => exact .some (hn m rfl t ht)
    | none =>
      cases hbrace : Program.read? .openBrace s with
      | some brace => exact .some ((ruleSet_stays (hs.read? hbrace (by decide)) _).carries _)
      | none =>
        cases hname : Program.read? .identifier s with
        | some name => exact .some (((hs.read? hname (by decide)).stays _ 0).carries _)
        | none => exact .none

theorem block_tracks (levels : Nat) : k.TracksStep levels (Program.block levels) := by
  induction levels with
  | zero => exact block_tracks_over fun m h => absurd h (Nat.succ_ne_zero m).symm
  | succ levels ih =>
    refine block_tracks_over ?_
    intro m hm
    cases hm
    exact nestedBlock_tracks (block_scans _) ih fun hneed => k.reads hneed .inner

/-- Alone the text is read to its last period, and with the sequel to the end of that. -/
theorem program_carries {s : List Char} (hs : k.Pending s)
    (hneed : k.need ≤ maxNesting - parens (Program.pieces s)) :
    ∃ ps, Program.pieces s = ps ++ (gaps k.blanks).pieces ∧
      Program.pieces (s ++ k.text) = ps ++ k.pieces ++ (gaps k.rest).pieces := by
  have hparens : parens (declarations (Program.block maxNesting) .top s).pieces ≤
      parens (Program.pieces s) := by
    unfold Program.pieces
    rw [parens_append]
    exact Nat.le_add_right _ _
  have hreads : k.need ≤ maxNesting → ∃ c, declarations (Program.block maxNesting) .top
      (k.blanks ++ k.text) = ⟨k.pieces, k.rest, c⟩ := fun h => k.reads h .top
  rcases declarations_carries (block_scans maxNesting) (block_tracks maxNesting) hreads hs with
    ⟨hr, _⟩ | ⟨hr, h⟩
  · -- a program leaves nothing unread, so it does not stop before its last period
    exact absurd (program_rest s) hr.gaps.ne_nil
  · have hmore := h (by
      simp only [Reading.uncounted]
      omega)
    obtain ⟨hps, hrest, _⟩ := Reading.mk.inj hmore
    have hr : (declarations (Program.block maxNesting) .top s).rest = k.blanks := hr
    refine ⟨(declarations (Program.block maxNesting) .top s).pieces, ?_, ?_⟩
    · unfold Program.pieces
      dsimp only
      rw [hr]
    · unfold Program.pieces
      dsimp only
      rw [hps, hrest]
      rfl

end Sequel

end GraphScribe.Program
