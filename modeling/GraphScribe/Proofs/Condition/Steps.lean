import GraphScribe.Proofs.Condition.Joined

/-! # The pieces of any condition text

A step takes a gap, a mark of its own or a word, and where nothing else fits it takes what it finds
as an error. Which of these it was and how it is spelled can be told from the piece; so can what the
reader knows afterwards. Pairing the parentheses changes neither. -/
namespace GraphScribe.Condition

open Lexis (gap? readName)

/-- No gap, no comment mark and no parenthesis begins here. -/
structure Unmarked (s : List Char) : Prop where
  gap : gap? (κ := Category) (φ := Fault) s = none
  commentClose : read? .commentClose s = none
  openParen : read? .openParen s = none
  closeParen : read? .closeParen s = none

inductive Steps (operandNext : Bool) (s : List Char) : Step → Prop where
  | gap {p : Piece} {t : List Char} : gap? s = some (p, t) →
      Steps operandNext s ⟨p, operandNext, t⟩
  | strayCommentClose {r t : List Char} : read? .commentClose s = some (r, t) →
      Steps operandNext s ⟨.fault .strayCommentClose r, operandNext, t⟩
  | openParen {r t : List Char} : read? .openParen s = some (r, t) →
      Steps operandNext s ⟨.token .openParen r, true, t⟩
  | closeParen {r t : List Char} : read? .closeParen s = some (r, t) →
      Steps operandNext s ⟨.token .closeParen r, false, t⟩
  | word {c : Category} {r t : List Char} : Unmarked s →
      Lexicon.readAny? (isWord (operandNext || s.head? != some '-')) s = some (c, r, t) →
      Steps operandNext s ⟨.token c r, introducesOperand c r, t⟩
  | unexpected {r t : List Char} : Unmarked s → Lexis.readStray s = some (r, t) →
      Steps operandNext s ⟨.fault .unexpected r, true, t⟩

theorem steps_of_step? {operandNext : Bool} {s : List Char} {step : Step}
    (h : step? operandNext s = some step) : Steps operandNext s step := by
  rw [step?] at h
  split at h
  · rename_i hgap
    cases h
    exact .gap hgap
  rename_i hgap
  rw [lexeme?] at h
  cases hcomment : read? .commentClose s with
  | some cut =>
    rw [hcomment] at h
    cases h
    exact .strayCommentClose hcomment
  | none =>
    cases hopen : read? .openParen s with
    | some cut =>
      rw [hcomment, hopen] at h
      cases h
      exact .openParen hopen
    | none =>
      cases hclose : read? .closeParen s with
      | some cut =>
        rw [hcomment, hopen, hclose] at h
        cases h
        exact .closeParen hclose
      | none =>
        have hmarks : Unmarked s := ⟨hgap, hcomment, hopen, hclose⟩
        rw [hcomment, hopen, hclose] at h
        cases hword : Lexicon.readAny? (isWord (operandNext || s.head? != some '-')) s with
        | some cut =>
          rw [hword] at h
          cases h
          exact .word hmarks hword
        | none =>
          rw [hword] at h
          obtain ⟨cut, hstray, rfl⟩ := Option.map_eq_some_iff.mp h
          exact .unexpected hmarks hstray

inductive Word (signed : Bool) (s : List Char) : Category → List Char → List Char → Prop where
  | keyword {r t : List Char} : read? .keyword s = some (r, t) → Word signed s .keyword r t
  | number {r t : List Char} : signed = true → Lexis.readNumber s = some (r, t) →
      Word signed s .number r t
  | quotedString {r t : List Char} : Lexis.readQuotation s = some (r, t) →
      Word signed s .quotedString r t
  | identifier {r t : List Char} : read? .keyword s = none → readName s = some (r, t) →
      Word signed s .identifier r t
  | operator {r t : List Char} : (signed = true → Lexis.readNumber s = none) →
      Lexis.readSymbol operators s = some (r, t) → Word signed s .operator r t

theorem word_of_readAny? {signed : Bool} {s r t : List Char} {c : Category}
    (h : Lexicon.readAny? (isWord signed) s = some (c, r, t)) : Word signed s c r t := by
  have found : ∀ {k : Category} {cut : Option Lexis.Cut}, cut.map (k, ·) = some (c, r, t) →
      k = c ∧ cut = some (r, t) := by
    intro k cut h
    obtain ⟨_, hcut, heq⟩ := Option.map_eq_some_iff.mp h
    cases heq
    exact ⟨rfl, hcut⟩
  simp only [readAny?_isWord, read?_number, read?_quotedString, read?_identifier, read?_operator,
    Option.or_eq_some_iff, Option.map_eq_none_iff] at h
  rcases h with h | ⟨hkeyword, h | ⟨hnumber, h | ⟨-, h | ⟨-, h⟩⟩⟩⟩
  · obtain ⟨rfl, hread⟩ := found h
    exact .keyword hread
  · split at h
    · rename_i hsigned
      obtain ⟨rfl, hread⟩ := found h
      exact .number hsigned hread
    · cases h
  · obtain ⟨rfl, hread⟩ := found h
    exact .quotedString hread
  · obtain ⟨rfl, hread⟩ := found h
    exact .identifier hkeyword hread
  · obtain ⟨rfl, hread⟩ := found h
    refine .operator ?_ hread
    intro hsigned
    simpa [hsigned] using hnumber

def operandPast (operandNext : Bool) : Piece → Bool
  | .blank _ => operandNext
  | .token c r => operandAfter operandNext c r
  | .fault .strayCommentClose _ => operandNext
  | .fault .unexpected _ => true
  | .fault .strayClose _ => false
  | .fault .unclosedParen _ => true

theorem isWord_of_readAny? {signed : Bool} {s r t : List Char} {c : Category}
    (h : Lexicon.readAny? (isWord signed) s = some (c, r, t)) : isWord signed c = true := by
  obtain ⟨_, _, haccept, _⟩ := Lexicon.readAny?_eq_some h
  exact haccept

theorem isWord_of_isWord {signed : Bool} {c : Category} (h : isWord signed c = true) :
    isWord true c = true := by
  cases c with
  | number => rfl
  | _ => exact h

theorem operandAfter_word {signed operandNext : Bool} {c : Category} (h : isWord signed c = true)
    (r : List Char) : operandAfter operandNext c r = introducesOperand c r := by
  cases c with
  | openParen | comment => cases h
  | _ => rfl

theorem comment_of_gap? {s r t : List Char} {c : Category}
    (h : gap? (κ := Category) (φ := Fault) s = some (.token c r, t)) : c = .comment := by
  rcases Lexis.gap?_cases h with ⟨hp, _, _⟩ | ⟨_, hp, _⟩
  · cases hp
  · cases hp
    rfl

theorem Steps.operandNext {operandNext : Bool} {s : List Char} {step : Step}
    (h : Steps operandNext s step) : step.operandNext = operandPast operandNext step.piece := by
  cases h with
  | gap hgap =>
    rcases Lexis.gap?_cases hgap with ⟨rfl, _, _⟩ | ⟨r, rfl, _⟩
    · rfl
    · rfl
  | strayCommentClose => rfl
  | openParen => rfl
  | closeParen => rfl
  | word _ hword => exact (operandAfter_word (isWord_of_readAny? hword) _).symm
  | unexpected => rfl

theorem readNumber_cases {s r t : List Char} (h : Lexis.readNumber s = some (r, t)) :
    ∃ ds, ds ≠ [] ∧ (∀ d ∈ ds, d.isDigit = true) ∧ (r = ds ∨ r = '-' :: ds) ∧
      ∀ d, t.head? = some d → d.isDigit = false := by
  have digits : ∀ {sign s r t : List Char}, Lexis.readDigits sign s = some (r, t) →
      ∃ ds, ds ≠ [] ∧ (∀ d ∈ ds, d.isDigit = true) ∧ r = sign ++ ds ∧
        ∀ d, t.head? = some d → d.isDigit = false := by
    intro sign s r t h
    rw [Lexis.readDigits] at h
    split at h
    · cases h
    · rename_i hne
      cases h
      refine ⟨_, hne, fun d hd => List.all_eq_true.mp List.all_takeWhile d hd, rfl, ?_⟩
      intro d hd
      have hhead := List.head?_dropWhile_not Char.isDigit s
      rw [hd] at hhead
      simpa using hhead
  rw [Lexis.readNumber.eq_def] at h
  split at h
  · obtain ⟨ds, hne, hds, hr, hend⟩ := digits h
    exact ⟨ds, hne, hds, .inr hr, hend⟩
  · obtain ⟨ds, hne, hds, hr, hend⟩ := digits h
    exact ⟨ds, hne, hds, .inl hr, hend⟩

theorem readNumber_signed {d : Char} (hd : d.isDigit = true) (s : List Char) :
    Lexis.readNumber ('-' :: d :: s) =
      some ('-' :: d :: s.takeWhile Char.isDigit, s.dropWhile Char.isDigit) := by
  simp [Lexis.readNumber, Lexis.readDigits, hd]

theorem longMarks_cases : ∀ m ∈ longMarks,
    (∃ w ∈ operators, w.toList = m) ∨ m = ['/', '*'] ∨ m = ['*', '/'] := by decide

theorem gap?_comment_ne_none (s : List Char) :
    gap? (κ := Category) (φ := Fault) ('/' :: '*' :: s) ≠ none := by
  intro h
  have hread := Lexis.readComment_of_gap?_none h
  rw [Lexis.readComment] at hread
  split at hread
  · cases hread
  · cases hread

/-- An operator is read with all characters that make a longer mark of it. -/
theorem not_long_of_read {s r t : List Char} {d : Char} (h : Unmarked s)
    (hread : Lexis.readSymbol operators s = some (r, t)) (hd : t.head? = some d) :
    r ++ [d] ∉ longMarks := by
  intro hlong
  obtain ⟨u, rfl⟩ : ∃ u, t = d :: u := by
    cases t with
    | nil => cases hd
    | cons a u => exact ⟨u, by cases hd; rfl⟩
  have happ := Lexis.readSymbol_append hread
  have hs : (r ++ [d]) ++ u = s := by rw [← happ, List.append_assoc]; rfl
  rcases longMarks_cases _ hlong with ⟨w, hw, hmark⟩ | hmark | hmark
  · have hends : Ends true .operator w.toList u := by
      rintro a - (hlonger | ⟨hminus, -, -⟩)
      · have htwo : ∀ m ∈ longMarks, m.length = 2 := by decide
        have hlength := htwo _ hlonger
        rw [List.length_append, hmark, htwo _ hlong] at hlength
        cases hlength
      · have hnot : ['-'] ∉ longMarks := by decide
        rw [← hmark, hminus] at hlong
        exact hnot hlong
    have hlongest := readSymbol_longest hw (longest_of_ends hw hends) (by decide)
    rw [hmark, hs, hread] at hlongest
    have := congrArg List.length (Prod.mk.inj (Option.some.inj hlongest)).1
    simp at this
  · rw [hmark] at hs
    have := h.gap
    rw [← hs] at this
    exact gap?_comment_ne_none u this
  · have hclose := read?_commentClose.mpr ⟨rfl, hs.symm.trans (by rw [hmark]; rfl)⟩
    rw [h.commentClose] at hclose
    cases hclose

theorem Word.ends {operandNext : Bool} {s r t : List Char} {c : Category} (hmarks : Unmarked s)
    (h : Word (operandNext || s.head? != some '-') s c r t) : Ends operandNext c r t := by
  intro d hd hextends
  cases h with
  | keyword hread =>
    obtain ⟨-, -, hend⟩ := read?_keyword.mp hread
    cases t with
    | nil => cases hd
    | cons a t =>
      cases hd
      have hword : Text.isWordChar d = true := hextends
      simp [Text.wordEnds, hword] at hend
  | number _ hread =>
    obtain ⟨_, _, _, _, hend⟩ := readNumber_cases hread
    exact Bool.eq_false_iff.mp (hend d hd) hextends
  | quotedString => exact hextends
  | identifier _ hread =>
    obtain ⟨-, hend, -⟩ := Lexis.readName_eq_some_iff.mp hread
    exact Bool.eq_false_iff.mp (hend d hd) hextends
  | operator hnumber hread =>
    rcases hextends with hlong | ⟨rfl, rfl, hdigit⟩
    · exact not_long_of_read hmarks hread hd hlong
    · have happ := Lexis.readSymbol_append hread
      cases t with
      | nil => cases hd
      | cons a t =>
        cases hd
        have hnone := hnumber rfl
        rw [← happ, List.singleton_append, readNumber_signed hdigit] at hnone
        cases hnone

theorem Steps.ends {operandNext after : Bool} {s r t : List Char} {c : Category}
    (h : Steps operandNext s ⟨.token c r, after, t⟩) : Ends operandNext c r t := by
  have trivially : ∀ {c}, (∀ d, ¬Extends operandNext c r d) → Ends operandNext c r t :=
    fun h d _ => h d
  cases h with
  | gap hgap =>
    cases comment_of_gap? hgap
    exact trivially fun _ => id
  | openParen => exact trivially fun _ => id
  | closeParen => exact trivially fun _ => id
  | word hmarks hword => exact (word_of_readAny? hword).ends hmarks

/-- A number has a sign only where an operand may come. -/
theorem Steps.sign {operandNext after : Bool} {s r t : List Char} {c : Category}
    (h : Steps operandNext s ⟨.token c r, after, t⟩) (hsign : Signed c r) :
    operandNext = true := by
  obtain ⟨rfl, hminus⟩ := hsign
  cases h with
  | gap hgap => cases comment_of_gap? hgap
  | word _ hword =>
    have hsigned : (operandNext || s.head? != some '-') = true := isWord_of_readAny? hword
    have hhead : s.head? = some '-' := by
      rw [← Lexicon.read?_append (read?_of_readAny? hword), List.head?_append, hminus]
      rfl
    simpa [hhead] using hsigned

def markTexts : List (List Char) := [['('], [')'], ['*', '/']]

/-- What a piece of a condition text can be. -/
inductive Formed : Piece → Prop where
  | blank {r : List Char} : Formed (.blank r)
  | comment {r : List Char} : r ∉ markTexts → Formed (.token .comment r)
  | word {c : Category} {r : List Char} : isWord true c = true → r ∉ markTexts →
      Formed (.token c r)
  | openParen : Formed (.token .openParen ['('])
  | closeParen : Formed (.token .closeParen [')'])
  | unclosedParen : Formed (.fault .unclosedParen ['('])
  | strayClose : Formed (.fault .strayClose [')'])
  | strayCommentClose : Formed (.fault .strayCommentClose ['*', '/'])
  | unexpected {r : List Char} : r ∉ markTexts → Formed (.fault .unexpected r)

theorem Unmarked.not_mark {s r t : List Char} (h : Unmarked s) (hs : r ++ t = s) :
    r ∉ markTexts := by
  intro hr
  simp only [markTexts, List.mem_cons, List.not_mem_nil, or_false] at hr
  rcases hr with rfl | rfl | rfl
  · have hopen := (read?_paren (c := .openParen) rfl).mpr ⟨rfl, hs.symm⟩
    rw [h.openParen] at hopen
    cases hopen
  · have hclose := (read?_paren (c := .closeParen) rfl).mpr ⟨rfl, hs.symm⟩
    rw [h.closeParen] at hclose
    cases hclose
  · have hcomment := read?_commentClose.mpr ⟨rfl, hs.symm⟩
    rw [h.commentClose] at hcomment
    cases hcomment

theorem Steps.formed {operandNext : Bool} {s : List Char} {step : Step}
    (h : Steps operandNext s step) : Formed step.piece := by
  cases h with
  | gap hgap =>
    rcases Lexis.gap?_cases hgap with ⟨rfl, _, _⟩ | ⟨r, rfl, hr⟩
    · exact .blank
    · obtain ⟨body, rfl, _⟩ := Lexis.readComment_cases hr
      exact .comment (by simp [markTexts])
  | strayCommentClose hread =>
    obtain ⟨rfl, -⟩ := read?_commentClose.mp hread
    exact .strayCommentClose
  | openParen hread =>
    obtain ⟨rfl, -⟩ := (read?_paren rfl).mp hread
    exact .openParen
  | closeParen hread =>
    obtain ⟨rfl, -⟩ := (read?_paren rfl).mp hread
    exact .closeParen
  | word hmarks hword =>
    have hc := isWord_of_readAny? hword
    exact .word (isWord_of_isWord hc)
      (hmarks.not_mark (Lexicon.read?_append (read?_of_readAny? hword)))
  | unexpected hmarks hstray =>
    exact .unexpected (hmarks.not_mark (Lexis.readStray_append hstray))

theorem Marked.formed {p q : Piece} (h : Marked p q) (hp : Formed p) : Formed q := by
  cases h with
  | keep => exact hp
  | strayClose run =>
    cases hp with
    | word hc _ => cases hc
    | closeParen => exact .strayClose
  | unclosed run =>
    cases hp with
    | word hc _ => cases hc
    | openParen => exact .unclosedParen

theorem Marked.operandPast {p q : Piece} (h : Marked p q) (operandNext : Bool) :
    operandPast operandNext q = operandPast operandNext p := by
  cases h with
  | keep => rfl
  | strayClose => rfl
  | unclosed => rfl

theorem Marked.run {p q : Piece} (h : Marked p q) : q.run = p.run := by
  cases h with
  | keep => rfl
  | strayClose => rfl
  | unclosed => rfl

theorem Marked.trans {p q r : Piece} (h : Marked p q) (k : Marked q r) : Marked p r := by
  cases k with
  | keep => exact h
  | strayClose run =>
    cases h with
    | keep => exact .strayClose run
  | unclosed run =>
    cases h with
    | keep => exact .unclosed run

theorem text_scan (operandNext : Bool) (s : List Char) :
    Lexis.Piece.text (scan operandNext s) = s := by
  have htext := (scans_scan operandNext s).append
  rwa [List.append_nil] at htext

theorem step?_of_scan_cons {operandNext : Bool} {s : List Char} {p : Piece} {ps : List Piece}
    (h : scan operandNext s = p :: ps) :
    step? operandNext s = some ⟨p, operandPast operandNext p, Lexis.Piece.text ps⟩ ∧
      scan (operandPast operandNext p) (Lexis.Piece.text ps) = ps := by
  cases hstep : step? operandNext s with
  | none =>
    rw [eq_nil_of_step?_none hstep, scan_nil] at h
    cases h
  | some step =>
    rw [scan_of_step? hstep] at h
    obtain ⟨rfl, hps⟩ := List.cons.inj h
    have htext := text_scan step.operandNext step.rest
    rw [hps] at htext
    rw [← (steps_of_step? hstep).operandNext, htext]
    exact ⟨rfl, hps⟩

theorem scan_of_scan_append {operandNext : Bool} {s : List Char} {before after : List Piece}
    (h : scan operandNext s = before ++ after) :
    scan (before.foldl operandPast operandNext) (Lexis.Piece.text after) = after := by
  induction before generalizing operandNext s with
  | nil =>
    have htext := text_scan operandNext s
    rw [List.nil_append] at h
    rw [h] at htext
    rw [htext]
    exact h
  | cons p before ih => exact ih (step?_of_scan_cons h).2

/-- Every piece of a scan is the step that the reader makes at its place. -/
theorem step?_of_scan {operandNext : Bool} {s : List Char} {before after : List Piece} {p : Piece}
    (h : scan operandNext s = before ++ p :: after) :
    step? (before.foldl operandPast operandNext) (p.run ++ Lexis.Piece.text after) =
      some ⟨p, operandPast (before.foldl operandPast operandNext) p, Lexis.Piece.text after⟩ := by
  have hplace := scan_of_scan_append h
  rw [Lexis.Piece.text_cons] at hplace
  exact (step?_of_scan_cons hplace).1

theorem pieces_marked (s : List Char) : List.Forall₂ Marked (scan true s) (pieces s) := by
  have compose : ∀ {ps qs rs : List Piece}, List.Forall₂ Marked ps qs → List.Forall₂ Marked qs rs →
      List.Forall₂ Marked ps rs := by
    intro ps qs rs h k
    induction h generalizing rs with
    | nil => exact k
    | cons hp _ ih =>
      cases k with
      | cons hq k => exact .cons (hp.trans hq) (ih k)
  exact compose (markStrayCloses_marked 0 _) (markUnclosed_marked _)

theorem foldl_operandPast_of_marked {ps qs : List Piece} (h : List.Forall₂ Marked ps qs)
    (operandNext : Bool) : qs.foldl operandPast operandNext = ps.foldl operandPast operandNext := by
  induction h generalizing operandNext with
  | nil => rfl
  | cons hp _ ih => rw [List.foldl_cons, List.foldl_cons, hp.operandPast, ih]

theorem text_of_marked {ps qs : List Piece} (h : List.Forall₂ Marked ps qs) :
    Lexis.Piece.text qs = Lexis.Piece.text ps := by
  induction h with
  | nil => rfl
  | cons hp _ ih => rw [Lexis.Piece.text_cons, Lexis.Piece.text_cons, hp.run, ih]

/-- At the place of a piece the reader made a step, to the piece as it was before pairing. -/
theorem step?_of_pieces {s : List Char} {before after : List Piece} {q : Piece}
    (h : pieces s = before ++ q :: after) : ∃ p operandNext, Marked p q ∧
      step? (before.foldl operandPast true) (q.run ++ Lexis.Piece.text after) =
        some ⟨p, operandNext, Lexis.Piece.text after⟩ := by
  have hmarked := pieces_marked s
  rw [h] at hmarked
  have hbefore := List.forall₂_take_append _ _ _ hmarked
  have hrest := List.forall₂_drop_append _ _ _ hmarked
  obtain ⟨p, ps, hp, hafter, hdrop⟩ := List.forall₂_cons_right_iff.mp hrest
  have hscan := List.take_append_drop before.length (scan true s)
  rw [hdrop] at hscan
  have hstep := step?_of_scan hscan.symm
  rw [← foldl_operandPast_of_marked hbefore, ← hp.run, ← text_of_marked hafter] at hstep
  exact ⟨p, _, hp, hstep⟩

theorem formed_of_mem {s : List Char} {q : Piece} (h : q ∈ pieces s) : Formed q := by
  obtain ⟨before, after, hsplit⟩ := List.append_of_mem h
  obtain ⟨p, _, hp, hstep⟩ := step?_of_pieces hsplit
  exact hp.formed (steps_of_step? hstep).formed

end GraphScribe.Condition
