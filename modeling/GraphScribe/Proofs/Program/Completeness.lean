import GraphScribe.Proofs.Program.Layout

/-! # How the layout of a program is read

Where a text is the layout of a production, the reader of that production reads exactly that layout.
It decides by what comes next past the gap, so for each production it is enough to know what can
begin it and what can follow it. The productions are proved for any reader of blocks that reads the
layouts of blocks, and the recursion is closed over the levels. -/
namespace GraphScribe.Program

open Lexis (Reads Scan readName)

def Begins (s : List Char) : Prop :=
  (∃ r t, readName s = some (r, t)) ∨
    ∃ (c : Category) (a : Char) (t : List Char),
      (c = .openParen ∨ c = .openBrace) ∧ c.mark? = some a ∧ s = a :: t

/-- Past the gap comes the end of the text or a mark of one of the categories. -/
def Followed (cs : List Category) (s : List Char) : Prop :=
  (gaps s).rest = [] ∨ ∃ c ∈ cs, ∃ a t, c.mark? = some a ∧ (gaps s).rest = a :: t

theorem mark?_injective {c d : Category} {a : Char} (hc : c.mark? = some a)
    (hd : d.mark? = some a) : c = d := by
  cases c <;> cases hc <;> cases d <;> first | rfl | cases hd

theorem read?_other_mark {c d : Category} {a b : Char} (hc : c.mark? = some a)
    (hd : d.mark? = some b) (hne : c ≠ d) (t : List Char) : read? d (a :: t) = none := by
  rw [read?_mark_cons hd, if_neg]
  rintro rfl
  exact hne (mark?_injective hc hd)

theorem Begins.ne_nil {s : List Char} (h : Begins s) : s ≠ [] := by
  rintro rfl
  rcases h with ⟨r, t, h⟩ | ⟨_, _, _, _, _, h⟩
  · cases h
  · cases h

theorem Begins.read?_mark {s : List Char} (h : Begins s) {c : Category} {a : Char}
    (hc : c.mark? = some a) (hparen : c ≠ .openParen) (hbrace : c ≠ .openBrace) :
    read? c s = none := by
  rcases h with ⟨r, t, h⟩ | ⟨d, b, t, hd, hb, rfl⟩
  · exact read?_mark_of_readName hc h
  · refine read?_other_mark hb hc ?_ t
    rintro rfl
    exact hd.elim hparen hbrace

theorem Begins.sequenceEnds {s : List Char} (h : Begins s) : sequenceEnds s = false := by
  simp [Program.sequenceEnds, starts, h.ne_nil,
    h.read?_mark (c := .declarationSeparator) rfl (by decide) (by decide),
    h.read?_mark (c := .closeParen) rfl (by decide) (by decide)]

theorem Followed.mono {cs ds : List Category} {s : List Char} (h : Followed cs s)
    (hsub : ∀ c ∈ cs, c ∈ ds) : Followed ds s := by
  rcases h with h | ⟨c, hc, h⟩
  · exact Or.inl h
  · exact Or.inr ⟨c, hsub c hc, h⟩

theorem Followed.read?_mark {cs : List Category} {s : List Char} (h : Followed cs s)
    {c : Category} {a : Char} (hc : c.mark? = some a) (hn : c ∉ cs) :
    read? c (gaps s).rest = none := by
  rcases h with h | ⟨d, hd, b, t, hb, h⟩
  · rw [h]
    exact read?_mark_nil hc
  · rw [h]
    refine read?_other_mark hb hc ?_ t
    rintro rfl
    exact hn hd

theorem Followed.readName {cs : List Category} {s : List Char} (h : Followed cs s) :
    readName (gaps s).rest = none := by
  rcases h with h | ⟨d, _, b, t, hb, h⟩
  · rw [h]
    rfl
  · rw [h]
    exact readName_of_mark hb t

theorem Followed.keyword? {cs : List Category} {s : List Char} (h : Followed cs s) (w : String) :
    keyword? w (gaps s).rest = none := keyword?_of_none (read?_keyword_of_readName h.readName)

theorem Laid.followed {s t : List Char} {x : Spaced} {xs : List Spaced} {c : Category}
    (h : Laid s (x :: xs) t) (hx : spaced.mark c x) : Followed [c] s := by
  obtain ⟨a, u, ha, _, _, hrest, _⟩ := h.mark hx
  exact Or.inr ⟨c, List.mem_singleton_self c, a, u, ha, hrest⟩

def Scope.ends : Scope → List Category
  | .top => [.declarationSeparator]
  | .inner => [.declarationSeparator, .closeParen]

def commandStops : List Category := [.statementSeparator, .declarationSeparator, .closeParen]

theorem Followed.commandStops_of_ends {scope : Scope} {s : List Char}
    (h : Followed scope.ends s) : Followed commandStops s := by
  refine h.mono ?_
  cases scope <;> decide

theorem Followed.sequenceEnds {scope : Scope} {s : List Char} (h : Followed scope.ends s) :
    sequenceEnds (gaps s).rest = true := by
  have h : Followed [.declarationSeparator, .closeParen] s := by
    refine h.mono ?_
    cases scope <;> decide
  rcases h with h | ⟨c, hc, a, t, ha, h⟩
  · rw [h]
    rfl
  · rw [h]
    have hread : read? c (a :: t) = some ([a], t) := (Program.read?_mark ha).mpr ⟨rfl, rfl⟩
    simp only [List.mem_cons, List.not_mem_nil, or_false] at hc
    rcases hc with rfl | rfl <;> simp [Program.sequenceEnds, starts, hread]

/-- Where no equals sign is past the gap, a name before that gap declares nothing. -/
theorem startsDeclaration_of_name {s r t : List Char} (h : readName s = some (r, t))
    (hnext : read? .declarationOperator (gaps t).rest = none) : startsDeclaration s = false := by
  cases hs : startsDeclaration s with
  | false => rfl
  | true =>
    obtain ⟨r', t', hr, _, hsign⟩ := startsDeclaration_iff.mp hs
    rw [h] at hr
    cases hr
    obtain ⟨u, hu⟩ := List.head?_eq_some_iff.mp hsign
    rw [(gaps_of_sign hsign).1, hu, (Program.read?_mark rfl).mpr ⟨rfl, rfl⟩] at hnext
    cases hnext

theorem startsDeclaration_of_reserved {s r t : List Char} (h : readName s = some (r, t))
    (hr : isReserved (String.ofList r) = true) : startsDeclaration s = false := by
  cases hs : startsDeclaration s with
  | false => rfl
  | true =>
    obtain ⟨r', t', hr', hres, _⟩ := startsDeclaration_iff.mp hs
    rw [h] at hr'
    cases hr'
    rw [hr] at hres
    cases hres

theorem startsDeclaration_of_none {s : List Char} (h : readName s = none) :
    startsDeclaration s = false := by
  simp [startsDeclaration, h]

/-- What a block can begin with; a name is all of its block. -/
inductive BlockBegins (s t : List Char) : Prop where
  | mark {c : Category} {a : Char} {u : List Char} : c = .openParen ∨ c = .openBrace →
      c.mark? = some a → s = a :: u → BlockBegins s t
  | word {r u : List Char} : read? .keyword s = some (r, u) →
      (String.ofList r = "skip" ∨ String.ofList r = "fail") → BlockBegins s t
  | name {n : String} : IsName n → readName s = some (n.toList, t) → BlockBegins s t

structure BlockReads (block : BlockReader) (B : List Spaced → Prop) : Prop where
  scans : StepScans block
  read : ∀ {xs s t}, B xs → Laid s xs t → blockPast block s = some ⟨flatten xs, t, 0⟩
  begins : ∀ {xs s t}, B xs → Laid s xs t → BlockBegins (gaps s).rest t

theorem BlockBegins.begins {s t : List Char} (h : BlockBegins s t) : Begins s := by
  cases h with
  | mark hc ha hs => exact Or.inr ⟨_, _, _, hc, ha, hs⟩
  | word hr _ => exact Or.inl ⟨_, _, (read?_keyword.mp hr).1⟩
  | name _ hr => exact Or.inl ⟨_, _, hr⟩

theorem BlockBegins.keyword? {s t : List Char} (h : BlockBegins s t) {w : String}
    (hskip : w ≠ "skip") (hfail : w ≠ "fail") : keyword? w s = none := by
  cases h with
  | @mark c a u _ ha hs =>
    rw [hs]
    exact keyword?_of_none (read?_keyword_of_readName (readName_of_mark ha u))
  | word hr hw =>
    rw [keyword?_of_read? hr, if_neg]
    rintro rfl
    exact hw.elim hskip hfail
  | name hn hr => exact keyword?_of_none (read?_keyword_of_name hn hr)

/-- A block declares nothing: no equals sign follows it. -/
theorem BlockBegins.startsDeclaration {s t : List Char} (h : BlockBegins s t)
    (hnext : read? .declarationOperator (gaps t).rest = none) : startsDeclaration s = false := by
  cases h with
  | @mark c a u _ ha hs =>
    rw [hs]
    exact startsDeclaration_of_none (readName_of_mark ha u)
  | word hr _ =>
    obtain ⟨hname, hres, _⟩ := read?_keyword.mp hr
    exact startsDeclaration_of_reserved hname hres
  | name _ hr => exact startsDeclaration_of_name hr hnext

section Commands

variable {block : BlockReader} {scope : Scope} {B : List Spaced → Prop} {xs : List Spaced}
  {x : Spaced} {s t : List Char}

theorem keyword?_of_laid {w : String} {r u : List Char}
    (hr : read? .keyword (gaps s).rest = some (r, u)) (hw : r = w.toList) :
    keyword? w (gaps s).rest = some (r, u) := by
  rw [keyword?_of_read? hr, if_pos]
  rw [hw, String.ofList_toList]

theorem clause_reads (hb : BlockReads block B) {w : String} (missing : Fault)
    (hl : Laid s (x :: xs) t) (hx : spaced.keyword w x) (hB : B xs) :
    ∃ r u, keyword? w (gaps s).rest = some (r, u) ∧
      (clause block r missing u).after (gaps s).pieces = ⟨flatten (x :: xs), t, 0⟩ := by
  obtain ⟨u, hg, hp, hr, hu⟩ := hl.keyword hx
  refine ⟨w.toList, u, keyword?_of_laid hr rfl, ?_⟩
  simp [clause, hb.read hB hu, Reading.after, hg, hp]

theorem elseBranch_reads (hb : BlockReads block B) (h : ElsePart spaced B xs) (hl : Laid s xs t)
    (hf : Followed commandStops t) : elseBranch block s = ⟨flatten xs, t, 0⟩ := by
  cases h with
  | none =>
    cases hl
    simp [elseBranch, keywordPast, hf.keyword?]
  | some hx hB =>
    obtain ⟨r, u, hk, hread⟩ := clause_reads hb .missingElseCommand hl hx hB
    simp [elseBranch, keywordPast, hk, hread]

theorem thenBranch_reads (hb : BlockReads block B) (h : ThenPart spaced B xs) (hl : Laid s xs t)
    (hf : Followed commandStops t) :
    ∃ r u, keywordPast "then" s = some ((gaps s).pieces, r, u) ∧
      (thenBranch block r u).after (gaps s).pieces = ⟨flatten xs, t, 0⟩ := by
  obtain ⟨hx, hB, hE⟩ := h
  obtain ⟨u, hg, hp, hr, hu⟩ := hl.keyword hx
  obtain ⟨v, hy, hz⟩ := hu.split
  have helse := elseBranch_reads hb hE hz hf
  refine ⟨"then".toList, u, by simp [keywordPast, keyword?_of_laid hr rfl], ?_⟩
  simp [thenBranch, hb.read hB hy, Reading.after, Reading.andThen, helse, hg, hp]

theorem blockTail_none (hf : Followed commandStops s) : blockTail block s = ⟨[], s, 0⟩ := by
  simp [blockTail, hf.read?_mark (c := .repetition) rfl (by decide), hf.keyword?]

theorem blockTail_repetition (hl : Laid s [x] t) (hx : spaced.mark .repetition x) :
    blockTail block s = ⟨flatten [x], t, 0⟩ := by
  obtain ⟨a, u, ha, hg, hp, hrest, hu⟩ := hl.mark hx
  cases hu
  have hr : read? .repetition (gaps s).rest = some ([a], t) :=
    (Program.read?_mark ha).mpr ⟨rfl, hrest⟩
  simp [blockTail, hr, hg, hp]

theorem blockTail_choice (hb : BlockReads block B) (hl : Laid s (x :: xs) t)
    (hx : spaced.keyword "or" x) (hB : B xs) : blockTail block s = ⟨flatten (x :: xs), t, 0⟩ := by
  obtain ⟨r, u, hk, hread⟩ := clause_reads hb .missingAlternative hl hx hB
  have hnone : read? .repetition (gaps s).rest = none :=
    read?_mark_of_readName rfl (read?_keyword.mp (keyword?_eq_some hk).1).1
  simp [blockTail, hnone, hk, hread]

theorem command_of_block (hb : BlockReads block B) {u : List Char} (hB : B xs) (hl : Laid s xs u) :
    (command block (gaps s).rest).after (gaps s).pieces =
      (⟨flatten xs, u, 0⟩ : Reading).andThen (blockTail block) := by
  have hbegins := hb.begins hB hl
  obtain ⟨first, hfirst, heq⟩ := Option.map_eq_some_iff.mp (hb.read hB hl)
  rw [← heq, ← Reading.after_andThen]
  simp [command, hbegins.keyword? (w := "if") (by decide) (by decide),
    hbegins.keyword? (w := "try") (by decide) (by decide), hfirst]

theorem conditional_reads (hb : BlockReads block B) {ys : List Spaced} (hB : B xs)
    (hT : ThenPart spaced B ys) (hl : Laid s (xs ++ ys) t) (hf : Followed commandStops t)
    (word : List Char) :
    conditional block word s = ⟨.token .keyword word :: flatten (xs ++ ys), t, 0⟩ := by
  obtain ⟨u, hx, hy⟩ := hl.split
  obtain ⟨r, v, hk, hthen⟩ := thenBranch_reads hb hT hy hf
  have hthen := Reading.after_eq hthen (.token .keyword word :: flatten xs)
  simpa [conditional, hb.read hB hx, hk] using hthen

theorem attemptThen_reads (hb : BlockReads block B) {ys : List Spaced} (hB : B xs)
    (hT : ThenPart spaced B ys) (hl : Laid s (xs ++ ys) t) (hf : Followed commandStops t)
    (word : List Char) :
    attempt block word s = ⟨.token .keyword word :: flatten (xs ++ ys), t, 0⟩ := by
  obtain ⟨u, hx, hy⟩ := hl.split
  obtain ⟨r, v, hk, hthen⟩ := thenBranch_reads hb hT hy hf
  have hthen := Reading.after_eq hthen (.token .keyword word :: flatten xs)
  simpa [attempt, hb.read hB hx, hk] using hthen

theorem attempt_reads (hb : BlockReads block B) (hB : B xs) (hl : Laid s xs t)
    (hf : Followed commandStops t) (word : List Char) :
    attempt block word s = ⟨.token .keyword word :: flatten xs, t, 0⟩ := by
  simp [attempt, hb.read hB hl, keywordPast, hf.keyword?, Reading.after]

theorem command_reads (hb : BlockReads block B) (h : Command spaced B xs) (hl : Laid s xs t)
    (hf : Followed commandStops t) :
    (command block (gaps s).rest).after (gaps s).pieces = ⟨flatten xs, t, 0⟩ := by
  cases h with
  | conditional hx hB hT =>
    obtain ⟨u, hg, hp, hr, hu⟩ := hl.keyword hx
    simp [command, keyword?_of_laid hr rfl, conditional_reads hb hB hT hu hf, Reading.after, hg, hp]
  | attempt hx hB =>
    obtain ⟨u, hg, hp, hr, hu⟩ := hl.keyword hx
    have hif : keyword? "if" (gaps s).rest = none := by
      rw [keyword?_of_read? hr]
      rfl
    simp [command, hif, keyword?_of_laid hr rfl, attempt_reads hb hB hu hf, Reading.after, hg, hp]
  | attemptThen hx hB hT =>
    obtain ⟨u, hg, hp, hr, hu⟩ := hl.keyword hx
    have hif : keyword? "if" (gaps s).rest = none := by
      rw [keyword?_of_read? hr]
      rfl
    simp [command, hif, keyword?_of_laid hr rfl, attemptThen_reads hb hB hT hu hf, Reading.after,
      hg, hp]
  | block hB =>
    rw [command_of_block hb hB hl]
    simp [Reading.andThen, blockTail_none hf]
  | repeated hB hx =>
    obtain ⟨u, hy, hz⟩ := hl.split
    rw [command_of_block hb hB hy]
    simp [Reading.andThen, blockTail_repetition hz hx]
  | choice hB hx hC =>
    obtain ⟨u, hy, hz⟩ := hl.split
    rw [command_of_block hb hB hy]
    simp [Reading.andThen, blockTail_choice hb hz hx hC]

theorem command_begins (hb : BlockReads block B) (h : Command spaced B xs) (hl : Laid s xs t)
    (hf : Followed commandStops t) :
    Begins (gaps s).rest ∧ startsDeclaration (gaps s).rest = false := by
  have word : ∀ {w : String} {x : Spaced} {ys : List Spaced} {v : List Char},
      spaced.keyword w x → Laid s (x :: ys) v →
      Begins (gaps s).rest ∧ startsDeclaration (gaps s).rest = false := by
    intro w x ys v hx hl
    obtain ⟨u, _, _, hr, _⟩ := hl.keyword hx
    obtain ⟨hname, hres, _⟩ := read?_keyword.mp hr
    exact ⟨Or.inl ⟨_, _, hname⟩, startsDeclaration_of_reserved hname hres⟩
  cases h with
  | conditional hx hB hT => exact word hx hl
  | attempt hx hB => exact word hx hl
  | attemptThen hx hB hT => exact word hx hl
  | block hB =>
    have hbegins := hb.begins hB hl
    exact ⟨hbegins.begins, hbegins.startsDeclaration (hf.read?_mark rfl (by decide))⟩
  | repeated hB hx =>
    obtain ⟨u, hy, hz⟩ := hl.split
    have hbegins := hb.begins hB hy
    exact ⟨hbegins.begins, hbegins.startsDeclaration ((hz.followed hx).read?_mark rfl (by decide))⟩
  | choice hB hx hC =>
    obtain ⟨u, hy, hz⟩ := hl.split
    have hbegins := hb.begins hB hy
    obtain ⟨v, _, _, hr, _⟩ := hz.keyword hx
    exact ⟨hbegins.begins, hbegins.startsDeclaration
      (read?_mark_of_readName rfl (read?_keyword.mp hr).1)⟩

theorem commandEnd_separator (hl : Laid s [x] t) (hx : spaced.mark .statementSeparator x)
    (hnext : sequenceEnds (gaps t).rest = false) : commandEnd s = ⟨flatten [x], t, 0⟩ := by
  obtain ⟨a, u, ha, hg, hp, hrest, hu⟩ := hl.mark hx
  cases hu
  have hr : read? .statementSeparator (gaps s).rest = some ([a], t) :=
    (Program.read?_mark ha).mpr ⟨rfl, hrest⟩
  simp [commandEnd, hr, hnext, hg, hp]

theorem commandEnd_last (hf : Followed scope.ends s) : commandEnd s = ⟨[], s, 0⟩ := by
  have hnone : read? .statementSeparator (gaps s).rest = none := by
    refine hf.read?_mark rfl ?_
    cases scope <;> decide
  simp [commandEnd, hnone, hf.sequenceEnds]

theorem sequenceStep_of_command (scope : Scope) (hbegins : Begins (gaps s).rest) {u : List Char}
    (hread : (command block (gaps s).rest).after (gaps s).pieces = ⟨flatten xs, u, 0⟩) :
    sequenceStep block scope s =
      some { (⟨flatten xs, u, 0⟩ : Reading).andThen commandEnd with commands := 1 } := by
  rw [← hread, ← Reading.after_andThen]
  simp [sequenceStep, starts, hbegins.ne_nil,
    hbegins.read?_mark (c := .declarationSeparator) rfl (by decide) (by decide),
    hbegins.read?_mark (c := .closeParen) rfl (by decide) (by decide),
    hbegins.read?_mark (c := .statementSeparator) rfl (by decide) (by decide)]

theorem sequenceStep_stops (hf : Followed scope.ends s) : sequenceStep block scope s = none := by
  unfold sequenceStep
  dsimp only
  rcases hf with h | ⟨c, hc, a, t, ha, h⟩
  · rw [h]
    rfl
  · rw [h]
    have hread : read? c (a :: t) = some ([a], t) := (Program.read?_mark ha).mpr ⟨rfl, rfl⟩
    cases scope with
    | top =>
      cases List.mem_singleton.mp hc
      simp [starts, hread]
    | inner =>
      simp only [Scope.ends, List.mem_cons, List.not_mem_nil, or_false] at hc
      rcases hc with rfl | rfl <;> simp [starts, hread]

theorem sequence_begins (hb : BlockReads block B) (h : Sequence spaced B xs) (hl : Laid s xs t)
    (hf : Followed commandStops t) :
    Begins (gaps s).rest ∧ startsDeclaration (gaps s).rest = false := by
  cases h with
  | one hC => exact command_begins hb hC hl hf
  | more hC hx _ =>
    obtain ⟨u, hy, hz⟩ := hl.split
    exact command_begins hb hC hy ((hz.followed hx).mono (by decide))

theorem sequence_reads (hb : BlockReads block B) (h : Sequence spaced B xs) (hl : Laid s xs t)
    (hf : Followed scope.ends t) :
    ∃ n, sequence block scope s = ⟨flatten xs, t, n + 1⟩ := by
  have hsteps : StepScans (sequenceStep block scope) := sequenceStep_scans hb.scans
  induction h generalizing s with
  | one hC =>
    have hstops := hf.commandStops_of_ends
    obtain ⟨hbegins, _⟩ := command_begins hb hC hl hstops
    have hstep := sequenceStep_of_command scope hbegins (command_reads hb hC hl hstops)
    refine ⟨0, ?_⟩
    rw [sequence, Reading.many_of_some hsteps hstep]
    simp [Reading.andThen, commandEnd_last hf, Reading.many_of_none (sequenceStep_stops hf)]
  | more hC hx hS ih =>
    obtain ⟨u, hy, hz⟩ := hl.split
    obtain ⟨v, hx', hrest⟩ := hz.uncons
    have hstops : Followed commandStops u := (hz.followed hx).mono (by decide)
    obtain ⟨hbegins, _⟩ := command_begins hb hC hy hstops
    have hstep := sequenceStep_of_command scope hbegins (command_reads hb hC hy hstops)
    obtain ⟨hnext, _⟩ := sequence_begins hb hS hrest hf.commandStops_of_ends
    obtain ⟨n, hn⟩ := ih hrest
    rw [sequence] at hn
    refine ⟨n + 1, ?_⟩
    rw [sequence, Reading.many_of_some hsteps hstep]
    simp [Reading.andThen, commandEnd_separator hx' hx hnext.sequenceEnds, hn, Nat.add_comm]

end Commands

section Declarations

variable {block : BlockReader} {B : List Spaced → Prop} {p : Place} {xs : List Spaced}
  {a b c : Spaced} {s t : List Char}

/-- The declared name and its equals sign, at the place where the layout has them. -/
theorem declarationHead_reads (hl : Laid s [a, b] t) (ha : spaced.declared p a)
    (hb : spaced.sign p b) :
    ∃ r u, read? .identifier (gaps s).rest = some (r, u) ∧
      (p ≠ .top → startsDeclaration (gaps s).rest = true) ∧
      (declarationHead r u).2 = true ∧
      (declarationHead r u).1.after (gaps s).pieces = ⟨flatten [a, b], t, 0⟩ := by
  obtain ⟨n, u, hn, hg, hp, hr, _, hu⟩ := hl.declared ha
  obtain ⟨v, hg', hp', hrest, hblank, hv⟩ := hu.sign hb
  cases hv
  have hsign : read? .declarationOperator (gaps u).rest = some (['='], t) :=
    (Program.read?_mark rfl).mpr ⟨rfl, hrest⟩
  have hres : isReserved (String.ofList n.toList) = false := by
    rw [String.ofList_toList]
    exact hn.2
  refine ⟨n.toList, u, by rw [read?_identifier, hr], ?_, by simp [declarationHead, hsign], ?_⟩
  · intro hp
    refine startsDeclaration_iff.mpr ⟨n.toList, u, hr, hres, ?_⟩
    have hdrop : (gaps u).rest = Text.dropBlank u := by
      refine Lexis.gaps_of_blanks ?_
      have hblank := hblank hp
      unfold Spaced.OnlyBlanks at hblank
      rwa [← hg'] at hblank
    rw [← hdrop, hrest]
    rfl
  · simp only [declarationHead, hsign, hres, Bool.false_eq_true, ↓reduceIte, Reading.after]
    simp [hg, hp, hg', hp']

theorem declarationEnd_reads (hl : Laid s [c] t) (hc : spaced.mark .declarationSeparator c)
    (name : List Char) (n : Nat) :
    declarationEnd name true (n + 1) s = ⟨flatten [c], t, 0⟩ := by
  obtain ⟨a, u, ha, hg, hp, hrest, hu⟩ := hl.mark hc
  cases hu
  have hr : read? .declarationSeparator (gaps s).rest = some ([a], t) :=
    (Program.read?_mark ha).mpr ⟨rfl, hrest⟩
  simp [declarationEnd, hr, hg, hp]

theorem declaration_of_parts (ha : spaced.declared p a) (hs : spaced.sign p b) {u v : List Char}
    (hl : Laid s [a, b] u) {ps qs : List Piece} {n : Nat}
    (hbody : sequence block p.scope u = ⟨ps, v, n⟩)
    (hend : ∀ name, declarationEnd name true n v = ⟨qs, t, 0⟩) :
    (declaration block p.scope (gaps s).rest).after (gaps s).pieces =
      ⟨flatten [a, b] ++ ps ++ qs, t, n⟩ := by
  obtain ⟨r, w, hr, _, hsign, hread⟩ := declarationHead_reads hl ha hs
  simp only [declaration, hr, hsign, Reading.after_andThen, hread]
  have hzero : (declarationHead r w).1.commands = 0 := congrArg Reading.commands hread
  have hrest : (declarationHead r w).1.rest = u := congrArg Reading.rest hread
  simp [Reading.andThen, hzero, hrest, hbody, hend]

theorem declarationStep_of_head (ha : spaced.declared p a) (hs : spaced.sign p b)
    (hl : Laid s [a, b] t) : declarationStep block p.scope s =
      some ((declaration block p.scope (gaps s).rest).after (gaps s).pieces) := by
  obtain ⟨r, w, hr, hstart, _, _⟩ := declarationHead_reads hl ha hs
  rw [read?_identifier] at hr
  have hbegins : Begins (gaps s).rest := Or.inl ⟨r, w, hr⟩
  cases p with
  | top =>
    simp [declarationStep, hbegins.ne_nil, Place.scope,
      hbegins.read?_mark (c := .closeParen) rfl (by decide) (by decide)]
  | first =>
    simp [declarationStep, hbegins.ne_nil, Place.scope, hstart,
      hbegins.read?_mark (c := .closeParen) rfl (by decide) (by decide)]
  | inner =>
    simp [declarationStep, hbegins.ne_nil, Place.scope, hstart,
      hbegins.read?_mark (c := .closeParen) rfl (by decide) (by decide)]

theorem declarationStep_reads (hb : BlockReads block B) (ha : spaced.declared p a)
    (hs : spaced.sign p b) (hS : Sequence spaced B xs) (hc : spaced.mark .declarationSeparator c)
    (hl : Laid s (a :: b :: (xs ++ [c])) t) :
    ∃ n, declarationStep block p.scope s = some ⟨flatten (a :: b :: (xs ++ [c])), t, n⟩ := by
  obtain ⟨u, hhead, hl⟩ := hl.uncons_two
  obtain ⟨v, hx, hend⟩ := hl.split
  have hf : Followed p.scope.ends v := by
    refine (hend.followed hc).mono ?_
    cases p <;> decide
  obtain ⟨n, hn⟩ := sequence_reads hb hS hx hf
  refine ⟨n + 1, ?_⟩
  rw [declarationStep_of_head ha hs hhead,
    declaration_of_parts ha hs hhead hn fun name => declarationEnd_reads hend hc name n]
  simp

/-- Declarations are read one by one, and reading goes on after them as if it began there. -/
theorem declarations_reads (hb : BlockReads block B) (h : Declarations spaced B p xs)
    (hl : Laid s xs t) :
    ∃ n, declarations block p.scope s =
      ⟨flatten xs ++ (declarations block p.scope t).pieces,
        (declarations block p.scope t).rest, n⟩ := by
  induction h generalizing s with
  | nil p =>
    cases hl
    exact ⟨_, rfl⟩
  | @cons p a b x c y ha hs hS hc _ ih =>
    rw [show a :: b :: (x ++ c :: y) = (a :: b :: (x ++ [c])) ++ y by simp] at hl ⊢
    obtain ⟨u, hx, hy⟩ := hl.split
    obtain ⟨n, hstep⟩ := declarationStep_reads hb ha hs hS hc hx
    obtain ⟨m, hm⟩ := ih hy
    rw [Place.next_scope] at hm
    refine ⟨n + m, ?_⟩
    rw [declarations] at hm
    rw [declarations, Reading.many_of_some (declarationStep_scans hb.scans) hstep]
    simp [Reading.andThen, hm, declarations]

theorem ended (block : BlockReader) (hend : (gaps s).rest = []) (scope : Scope) :
    Followed scope.ends s ∧ (∀ name n, declarationEnd name true n s = ⟨[], s, 0⟩) ∧
      declarationStep block scope s = none := by
  refine ⟨Or.inl hend, ?_, ?_⟩
  · intro name n
    simp [declarationEnd, hend, read?_mark_nil (c := .declarationSeparator) rfl]
  · simp [declarationStep, hend]

theorem unfinished_reads (hb : BlockReads block B) (h : Unfinished spaced B p xs)
    (hl : Laid s xs t) (hend : (gaps t).rest = []) :
    ∃ n, declarations block p.scope s = ⟨flatten xs, t, n⟩ := by
  have hsteps : StepScans (declarationStep block p.scope) := declarationStep_scans hb.scans
  obtain ⟨hf, hlast, hstop⟩ := ended block hend p.scope
  induction h generalizing s with
  | empty ha hs =>
    have hnone : sequence block _ t = ⟨[], t, 0⟩ := Reading.many_of_none (sequenceStep_stops hf)
    refine ⟨0, ?_⟩
    rw [declarations, Reading.many_of_some hsteps (declarationStep_of_head ha hs hl),
      declaration_of_parts ha hs hl hnone fun name => hlast name 0]
    simp [Reading.andThen, Reading.many_of_none hstop]
  | body ha hs hS =>
    obtain ⟨u, hhead, hx⟩ := hl.uncons_two
    obtain ⟨n, hn⟩ := sequence_reads hb hS hx hf
    refine ⟨n + 1, ?_⟩
    rw [declarations, Reading.many_of_some hsteps (declarationStep_of_head ha hs hhead),
      declaration_of_parts ha hs hhead hn fun name => hlast name (n + 1)]
    simp [Reading.andThen, Reading.many_of_none hstop]
  | @later p a b x c y ha hs hS hc _ ih =>
    rw [show a :: b :: (x ++ c :: y) = (a :: b :: (x ++ [c])) ++ y by simp] at hl ⊢
    obtain ⟨u, hx, hy⟩ := hl.split
    obtain ⟨n, hstep⟩ := declarationStep_reads hb ha hs hS hc hx
    rw [Place.next_scope] at ih
    obtain ⟨m, hm⟩ := ih hy hsteps hf hstop
    refine ⟨n + m, ?_⟩
    rw [declarations] at hm
    rw [declarations, Reading.many_of_some hsteps hstep]
    simp [Reading.andThen, hm]

end Declarations

section Blocks

variable {block : BlockReader} {B : List Spaced → Prop} {xs ys : List Spaced} {a b : Spaced}
  {s t : List Char}

/-- Reading past a gap cannot turn something into a declaration. -/
theorem startsDeclaration_past (h : startsDeclaration (gaps s).rest = false) :
    startsDeclaration s = false := by
  cases hs : startsDeclaration s with
  | false => rfl
  | true =>
    obtain ⟨r, t, hr, _⟩ := startsDeclaration_iff.mp hs
    have hrest : (gaps s).rest = s := by
      rw [gaps, Lexis.gaps_of_none (gap?_of_readName hr)]
    rw [hrest, hs] at h
    cases h

theorem declarationStep_inner_stops (hbegins : Begins (gaps s).rest)
    (hstart : startsDeclaration (gaps s).rest = false) :
    declarationStep block .inner s = none := by
  simp [declarationStep, hbegins.ne_nil, hstart,
    hbegins.read?_mark (c := .closeParen) rfl (by decide) (by decide)]

/-- The local declarations of a block are looked for before its commands. -/
theorem locals_read (hb : BlockReads block B) (hD : Declarations spaced B .first xs)
    (hl : Laid s xs t) (hbegins : Begins (gaps t).rest)
    (hstart : startsDeclaration (gaps t).rest = false) :
    ∃ n, (if startsDeclaration s then declarations block .inner s else ⟨[], s, 0⟩ : Reading) =
      ⟨flatten xs, t, n⟩ := by
  have hstop : declarations block .inner t = ⟨[], t, 0⟩ :=
    Reading.many_of_none (declarationStep_inner_stops hbegins hstart)
  obtain ⟨n, hn⟩ := declarations_reads hb hD hl
  cases hD with
  | nil =>
    cases hl
    exact ⟨0, by simp [startsDeclaration_past hstart]⟩
  | cons ha hs hS hc hD =>
    obtain ⟨u, hhead, _⟩ := hl.uncons_two
    obtain ⟨r, w, _, hsd, _, _⟩ := declarationHead_reads hhead ha hs
    -- the first declaration has no gap before it
    obtain ⟨_, _, _, hg, _, _, hfirst, _⟩ := hl.declared ha
    have hrest : (gaps s).rest = s := by
      have happ := (scans_gaps s).append
      rwa [hg, hfirst rfl] at happ
    have hyes := hsd (by decide)
    rw [hrest] at hyes
    refine ⟨n, ?_⟩
    rw [if_pos hyes]
    simpa [Place.scope, hstop] using hn

theorem blockBody_reads (hb : BlockReads block B) (hD : Declarations spaced B .first xs)
    (hS : Sequence spaced B ys) (hl : Laid s (xs ++ ys) t) (hf : Followed [.closeParen] t) :
    ∃ n, blockBody block s = ⟨flatten (xs ++ ys), t, n + 1⟩ := by
  obtain ⟨u, hx, hy⟩ := hl.split
  obtain ⟨hbegins, hstart⟩ := sequence_begins hb hS hy (hf.mono (by decide))
  obtain ⟨m, hlocals⟩ := locals_read hb hD hx hbegins hstart
  have hends : Followed Scope.inner.ends t := hf.mono (by decide)
  obtain ⟨n, hseq⟩ := sequence_reads hb hS hy hends
  have hstray : strayPeriodStep block t = none := by
    have hperiod : read? .declarationSeparator (gaps t).rest = none :=
      hf.read?_mark rfl (by decide)
    simp [strayPeriodStep, hperiod]
  refine ⟨n, ?_⟩
  unfold blockBody
  rw [hlocals]
  simp [hseq, Reading.many_of_none hstray]

theorem nestedBlock_reads (hb : BlockReads block B) (hD : Declarations spaced B .first xs)
    (hS : Sequence spaced B ys) (hp : spaced.mark .closeParen b)
    (hl : Laid s (xs ++ (ys ++ [b])) t) (paren : List Char) :
    nestedBlock block paren s =
      ⟨.token .openParen paren :: flatten (xs ++ (ys ++ [b])), t, 0⟩ := by
  rw [← List.append_assoc] at hl ⊢
  obtain ⟨u, hbody, hend⟩ := hl.split
  obtain ⟨n, hn⟩ := blockBody_reads hb hD hS hbody (hend.followed hp)
  obtain ⟨ch, v, hch, hg, hpiece, hrest, hv⟩ := hend.mark hp
  cases hv
  have hr : read? .closeParen (gaps u).rest = some ([ch], t) :=
    (Program.read?_mark hch).mpr ⟨rfl, hrest⟩
  simp [nestedBlock, hn, hr, hg, hpiece]

theorem ruleEnd_comma (hl : Laid s [a] t) (ha : spaced.mark .ruleSeparator a) {r u : List Char}
    (hnext : readName (gaps t).rest = some (r, u)) : ruleEnd s = ⟨flatten [a], t, 0⟩ := by
  obtain ⟨ch, v, hch, hg, hp, hrest, hv⟩ := hl.mark ha
  cases hv
  have hr : read? .ruleSeparator (gaps s).rest = some ([ch], t) :=
    (Program.read?_mark hch).mpr ⟨rfl, hrest⟩
  simp [ruleEnd, hr, starts, read?_identifier, hnext, hg, hp]

theorem ruleSetEnds_of_followed (hf : Followed [.closeBrace] s) :
    ruleSetEnds (gaps s).rest = true := by
  rcases hf with h | ⟨c, hc, a, t, ha, h⟩
  · rw [h]
    rfl
  · cases List.mem_singleton.mp hc
    have hr : read? .closeBrace (a :: t) = some ([a], t) :=
      (Program.read?_mark ha).mpr ⟨rfl, rfl⟩
    rw [h]
    simp [ruleSetEnds, starts, hr]

theorem ruleEnd_last (hf : Followed [.closeBrace] s) : ruleEnd s = ⟨[], s, 0⟩ := by
  have hnone : read? .ruleSeparator (gaps s).rest = none := hf.read?_mark rfl (by decide)
  simp [ruleEnd, hnone, ruleSetEnds_of_followed hf]

theorem ruleStep_of_name (hl : Laid s (a :: xs) t) (ha : spaced.name a) :
    ∃ r u v, readName (gaps s).rest = some (r, u) ∧ Laid v xs t ∧
      ruleStep s = some ((ruleEnd v).after (flatten [a])) := by
  obtain ⟨n, u, hn, hg, hp, hr, hu⟩ := hl.name ha
  have hres : isReserved (String.ofList n.toList) = false := by
    rw [String.ofList_toList]
    exact hn.2
  refine ⟨n.toList, u, u, hr, hu, ?_⟩
  simp only [ruleStep, ruleSetEnds_of_readName hr, read?_identifier, hr, hres, Bool.false_eq_true,
    ↓reduceIte]
  simp [Reading.after, hg, hp]

theorem names_begin (h : Names spaced xs) (hl : Laid s xs t) :
    ∃ r u, readName (gaps s).rest = some (r, u) := by
  cases h with
  | one ha =>
    obtain ⟨r, u, _, hr, _⟩ := ruleStep_of_name hl ha
    exact ⟨r, u, hr⟩
  | more ha _ _ =>
    obtain ⟨r, u, _, hr, _⟩ := ruleStep_of_name hl ha
    exact ⟨r, u, hr⟩

theorem rules_read (h : Names spaced xs) (hl : Laid s xs t) (hf : Followed [.closeBrace] t) :
    Reading.many ruleStep s = ⟨flatten xs, t, 0⟩ := by
  induction h generalizing s with
  | one ha =>
    obtain ⟨_, _, v, _, hv, hstep⟩ := ruleStep_of_name hl ha
    cases hv
    have hstop : ruleStep t = none := by simp [ruleStep, ruleSetEnds_of_followed hf]
    rw [Reading.many_of_some ruleStep_scans hstep]
    simp [Reading.andThen, ruleEnd_last hf, Reading.many_of_none hstop]
  | more ha hc hN ih =>
    obtain ⟨_, _, v, _, hv, hstep⟩ := ruleStep_of_name hl ha
    obtain ⟨w, hcomma, hmore⟩ := hv.uncons
    obtain ⟨r, u, hnext⟩ := names_begin hN hmore
    rw [Reading.many_of_some ruleStep_scans hstep]
    simp [Reading.andThen, ruleEnd_comma hcomma hc hnext, ih hmore]

theorem ruleSet_reads (hrules : Reading.many ruleStep s = ⟨flatten xs, t, 0⟩) {u : List Char}
    (hl : Laid t [b] u) (hb : spaced.mark .closeBrace b) (brace : List Char) :
    ruleSet brace s = ⟨.token .openBrace brace :: flatten (xs ++ [b]), u, 0⟩ := by
  obtain ⟨ch, v, hch, hg, hp, hrest, hv⟩ := hl.mark hb
  cases hv
  have hr : read? .closeBrace (gaps t).rest = some ([ch], u) :=
    (Program.read?_mark hch).mpr ⟨rfl, hrest⟩
  simp [ruleSet, hrules, hr, hg, hp]

theorem blockBegins (h : BlockOver spaced B xs) (hl : Laid s xs t) :
    BlockBegins (gaps s).rest t := by
  cases h with
  | skip ha =>
    obtain ⟨u, _, _, hr, _⟩ := hl.keyword ha
    exact .word hr (Or.inl (by rw [String.ofList_toList]))
  | fail ha =>
    obtain ⟨u, _, _, hr, _⟩ := hl.keyword ha
    exact .word hr (Or.inr (by rw [String.ofList_toList]))
  | name ha =>
    obtain ⟨n, u, hn, _, _, hr, hu⟩ := hl.name ha
    cases hu
    exact .name hn hr
  | parens ha =>
    obtain ⟨ch, u, hch, _, _, hrest, _⟩ := hl.mark ha
    exact .mark (Or.inl rfl) hch hrest
  | noRules ha =>
    obtain ⟨ch, u, hch, _, _, hrest, _⟩ := hl.mark ha
    exact .mark (Or.inr rfl) hch hrest
  | rules ha =>
    obtain ⟨ch, u, hch, _, _, hrest, _⟩ := hl.mark ha
    exact .mark (Or.inr rfl) hch hrest

theorem opening_reads {c : Category} (hl : Laid s (a :: xs) t) (ha : spaced.mark c a) :
    ∃ ch u, c.mark? = some ch ∧ (gaps s).pieces = a.1 ∧ a.2 = .token c [ch] ∧
      read? c (gaps s).rest = some ([ch], u) ∧ read? .keyword (gaps s).rest = none ∧
      (∀ {d e}, d.mark? = some e → c ≠ d → read? d (gaps s).rest = none) ∧ Laid u xs t := by
  obtain ⟨ch, u, hch, hg, hp, hrest, hu⟩ := hl.mark ha
  refine ⟨ch, u, hch, hg, hp, (Program.read?_mark hch).mpr ⟨rfl, hrest⟩, ?_, ?_, hu⟩
  · rw [hrest]
    exact read?_keyword_of_readName (readName_of_mark hch u)
  · intro d e hd hne
    rw [hrest]
    exact read?_other_mark hch hd hne u

end Blocks

/-- At every level the layouts of blocks are read as such, if they are one level further down. -/
theorem block_reads_over {levels : Nat} {B : List Spaced → Prop}
    (hn : ∀ n, levels = n + 1 → BlockReads (block n) B)
    (hzero : levels = 0 → ∀ xs, ¬B xs) : BlockReads (block levels) (BlockOver spaced B) where
  scans := block_scans levels
  begins := blockBegins
  read := by
    intro xs s t h hl
    cases h with
    | skip ha =>
      obtain ⟨u, hg, hp, hr, hu⟩ := hl.keyword ha
      cases hu
      simp [blockPast, block, hr, wordBlock, Reading.after, hg, hp]
    | fail ha =>
      obtain ⟨u, hg, hp, hr, hu⟩ := hl.keyword ha
      cases hu
      simp [blockPast, block, hr, wordBlock, Reading.after, hg, hp]
    | name ha =>
      obtain ⟨n, u, hn, hg, hp, hr, hu⟩ := hl.name ha
      cases hu
      have hparen : read? .openParen (gaps s).rest = none := read?_mark_of_readName rfl hr
      have hbrace : read? .openBrace (gaps s).rest = none := read?_mark_of_readName rfl hr
      simp [blockPast, block, read?_keyword_of_name hn hr, hparen, hbrace, read?_identifier, hr,
        Reading.after, hg, hp]
    | parens ha hD hS hp =>
      obtain ⟨ch, u, _, hg, hpiece, hr, hword, _, hu⟩ := opening_reads hl ha
      cases levels with
      | zero =>
        obtain ⟨y, hB⟩ := hS.exists_block
        exact absurd hB (hzero rfl y)
      | succ n =>
        have hnested := nestedBlock_reads (hn n rfl) hD hS hp hu [ch]
        simp [blockPast, block, hword, hr, hnested, Reading.after, hg, hpiece]
    | noRules ha hb =>
      obtain ⟨ch, u, _, hg, hpiece, hr, hword, hother, hu⟩ := opening_reads hl ha
      have hstop : ruleStep u = none := by
        simp [ruleStep, ruleSetEnds_of_followed (hu.followed hb)]
      have hrules : Reading.many ruleStep u = ⟨flatten [], u, 0⟩ := Reading.many_of_none hstop
      have hset := ruleSet_reads hrules hu hb [ch]
      have hparen : read? .openParen (gaps s).rest = none := hother rfl (by decide)
      simp [blockPast, block, hword, hparen, hr, hset, Reading.after, hg, hpiece]
    | rules ha hN hb =>
      obtain ⟨ch, u, _, hg, hpiece, hr, hword, hother, hu⟩ := opening_reads hl ha
      obtain ⟨v, hnames, hend⟩ := hu.split
      have hset := ruleSet_reads (rules_read hN hnames (hend.followed hb)) hend hb [ch]
      have hparen : read? .openParen (gaps s).rest = none := hother rfl (by decide)
      simp [blockPast, block, hword, hparen, hr, hset, Reading.after, hg, hpiece]

theorem block_reads (levels : Nat) : BlockReads (block levels) (Block spaced levels) := by
  induction levels with
  | zero =>
    refine block_reads_over ?_ fun _ _ h => h
    intro n h
    exact absurd h (Nat.succ_ne_zero n).symm
  | succ n ih =>
    refine block_reads_over ?_ fun h => absurd h (Nat.succ_ne_zero n)
    intro m hm
    cases hm
    exact ih

/-- The layout of a program is read as that layout, and whatever follows as if it stood alone. -/
theorem program_reads {xs : List Spaced} {s t : List Char} (h : IsProgram spaced xs)
    (hl : Laid s xs t) : pieces s = flatten xs ++ pieces t := by
  obtain ⟨n, hn⟩ := declarations_reads (block_reads maxNesting) h hl
  simp only [Place.scope] at hn
  simp [pieces, hn]

/-- A program whose last declaration may be unfinished is read as its layout, and the gap after it
ends the text. -/
theorem lenient_reads {levels : Nat} {p : Place} {xs : List Spaced} {s t : List Char}
    (h : Declarations spaced (Block spaced levels) p xs ∨
      Unfinished spaced (Block spaced levels) p xs)
    (hl : Laid s xs t) (hend : (gaps t).rest = []) :
    ∃ n, declarations (block levels) p.scope s = ⟨flatten xs, t, n⟩ := by
  rcases h with h | h
  · obtain ⟨n, hn⟩ := declarations_reads (block_reads levels) h hl
    obtain ⟨_, _, hstop⟩ := ended (block levels) hend p.scope
    refine ⟨n, ?_⟩
    have hdone : declarations (block levels) p.scope t = ⟨[], t, 0⟩ := Reading.many_of_none hstop
    rw [hn, hdone, List.append_nil]
  · exact unfinished_reads (block_reads levels) h hl hend

end GraphScribe.Program
