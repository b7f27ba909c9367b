import GraphScribe.Proofs.Condition.Steps

/-! # Minus signs

A minus sign before digits belongs to the number where an operand may come and subtracts anywhere
else. The reader decides by what it remembers, a reader of the tokens by the last one that is
neither a comment nor a stray comment mark: both agree on every text, errors included. -/
namespace GraphScribe.Condition

open Text (byteLength)

/-- Comments and stray comment marks do not count as what comes before an operand. -/
def Visible (t : Token Category) : Prop :=
  t.category ≠ .comment ∧ ¬(t.category = .error ∧ t.text = "*/")

instance (t : Token Category) : Decidable (Visible t) := inferInstanceAs (Decidable (_ ∧ _))

def lastVisible (before : List (Token Category)) : Option (Token Category) :=
  (before.filter (Visible ·)).getLast?

/-- The token was taken by recovery: nothing of the language fits at its place. -/
def Recovered (t : Token Category) : Prop :=
  t.category = .error ∧ t.description = some (Fault.unexpected.describe t.text t.start)

def ParenToken (paren : String) (kept : Category) (t : Token Category) : Prop :=
  t.text = paren ∧ (t.category = kept ∨ t.category = .error)

def AsksOperand (t : Token Category) : Prop :=
  t.category = .operator ∨ (t.category = .keyword ∧ t.text ∉ valueKeywords) ∨
    ParenToken "(" .openParen t ∨ Recovered t

def EndsOperand (t : Token Category) : Prop :=
  t.category = .identifier ∨ t.category = .number ∨ t.category = .quotedString ∨
    (t.category = .keyword ∧ t.text ∈ valueKeywords) ∨ ParenToken ")" .closeParen t

def DigitNext (text : String) (t : Token Category) : Prop :=
  ∃ before d after, text.toList = before ++ d :: after ∧ byteLength before = t.stop ∧
    d.isDigit = true

theorem visible_ofRun {c : Category} {r : List Char} (hc : c ≠ .comment) (hr : r ≠ ['*', '/'])
    (start : Nat) (description : Option String) : Visible (Token.ofRun c start r description) := by
  refine ⟨hc, ?_⟩
  rintro ⟨-, htext⟩
  apply hr
  rw [← String.toList_ofList (l := r)]
  exact congrArg String.toList htext

/-- What a visible token settles about the place after it. -/
structure Settles (t : Token Category) (operandNext : Bool) : Prop where
  visible : Visible t
  asks : operandNext = true → AsksOperand t
  ends : operandNext = false → EndsOperand t

theorem settles_word {c : Category} {r : List Char} (hc : isWord true c = true)
    (hr : r ∉ markTexts) (start : Nat) :
    Settles (Token.ofRun c start r none) (introducesOperand c r) where
  visible := by
    apply visible_ofRun
    · rintro rfl
      cases hc
    · rintro rfl
      exact hr (by decide)
  asks := by
    intro h
    cases c with
    | operator => exact .inl rfl
    | keyword => exact .inr (.inl ⟨rfl, by simpa [introducesOperand, Token.ofRun] using h⟩)
    | _ => cases h
  ends := by
    intro h
    cases c with
    | identifier => exact .inl rfl
    | number => exact .inr (.inl rfl)
    | quotedString => exact .inr (.inr (.inl rfl))
    | keyword =>
      exact .inr (.inr (.inr (.inl ⟨rfl, by simpa [introducesOperand, Token.ofRun] using h⟩)))
    | operator => cases h
    | _ => cases hc

theorem Formed.settles {p : Piece} (h : Formed p) (start : Nat) (operandNext : Bool) :
    (∃ t, p.token? start = some t ∧ Settles t (operandPast operandNext p)) ∨
      ((p.token? start).toList.filter (Visible ·) = [] ∧
        operandPast operandNext p = operandNext) := by
  cases h with
  | blank => exact .inr ⟨rfl, rfl⟩
  | comment => exact .inr ⟨rfl, rfl⟩
  | strayCommentClose => exact .inr ⟨rfl, rfl⟩
  | @word c r hc hr =>
    refine .inl ⟨_, rfl, ?_⟩
    have hpast : operandPast operandNext (.token c r) = introducesOperand c r :=
      operandAfter_word hc r
    rw [hpast]
    exact settles_word hc hr start
  | openParen =>
    refine .inl ⟨_, rfl, visible_ofRun (by decide) (by decide) _ _, ?_, ?_⟩
    · exact fun _ => .inr (.inr (.inl ⟨rfl, .inl rfl⟩))
    · rintro ⟨⟩
  | unclosedParen =>
    refine .inl ⟨_, rfl, visible_ofRun (by decide) (by decide) _ _, ?_, ?_⟩
    · exact fun _ => .inr (.inr (.inl ⟨rfl, .inr rfl⟩))
    · rintro ⟨⟩
  | closeParen =>
    refine .inl ⟨_, rfl, visible_ofRun (by decide) (by decide) _ _, ?_, ?_⟩
    · rintro ⟨⟩
    · exact fun _ => .inr (.inr (.inr (.inr ⟨rfl, .inl rfl⟩)))
  | strayClose =>
    refine .inl ⟨_, rfl, visible_ofRun (by decide) (by decide) _ _, ?_, ?_⟩
    · rintro ⟨⟩
    · exact fun _ => .inr (.inr (.inr (.inr ⟨rfl, .inr rfl⟩)))
  | @unexpected r hr =>
    refine .inl ⟨_, rfl, visible_ofRun (by decide) ?_ _ _, ?_, ?_⟩
    · rintro rfl
      exact hr (by decide)
    · exact fun _ => .inr (.inr (.inr ⟨rfl, rfl⟩))
    · rintro ⟨⟩

/-- After all pieces so far the last visible token has settled it; before any, an operand may
come. -/
theorem lastVisible_layOut {ps : List Piece} (hps : ∀ p ∈ ps, Formed p) :
    (∃ t, lastVisible (Lexis.layOut 0 ps) = some t ∧ Settles t (ps.foldl operandPast true)) ∨
      (lastVisible (Lexis.layOut 0 ps) = none ∧ ps.foldl operandPast true = true) := by
  induction ps using List.reverseRecOn with
  | nil => exact .inr ⟨rfl, rfl⟩
  | append_singleton ps p ih =>
    have ih := ih fun q hq => hps q (List.mem_append_left _ hq)
    have hlast : lastVisible (Lexis.layOut 0 (ps ++ [p])) =
        ((p.token? (0 + byteLength (Lexis.Piece.text ps))).toList.filter (Visible ·)).getLast?.or
          (lastVisible (Lexis.layOut 0 ps)) := by
      rw [lastVisible, Lexis.layOut_append, Lexis.layOut_cons, Lexis.layOut, List.append_nil,
        List.filter_append, List.getLast?_append]
      rfl
    rw [List.foldl_concat, hlast]
    rcases (hps p (by simp)).settles (0 + byteLength (Lexis.Piece.text ps))
      (ps.foldl operandPast true) with ⟨t, htoken, ht⟩ | ⟨hnone, hpast⟩
    · rw [htoken]
      exact .inl ⟨t, by simp [ht.visible], ht⟩
    · rw [hnone, hpast]
      exact ih

theorem digitNext_iff {text : String} {t : Token Category} {ps qs : List Piece} {q : Piece}
    (htext : Lexis.Piece.text (ps ++ q :: qs) = text.toList)
    (htoken : q.token? (0 + byteLength (Lexis.Piece.text ps)) = some t) :
    DigitNext text t ↔ ∃ d, (Lexis.Piece.text qs).head? = some d ∧ d.isDigit = true := by
  obtain ⟨-, hstop, -⟩ := Lexis.Piece.token?_span htoken
  have hstop : byteLength (Lexis.Piece.text ps ++ q.run) = t.stop := by
    rw [Text.byteLength_append, hstop]
    omega
  rw [Lexis.Piece.text_append, Lexis.Piece.text_cons, ← List.append_assoc] at htext
  constructor
  · rintro ⟨before, d, after, hsplit, hbefore, hd⟩
    obtain ⟨-, hnext⟩ := Text.append_inj_of_byteLength (htext.trans hsplit)
      (hstop.trans hbefore.symm)
    exact ⟨d, by rw [hnext]; rfl, hd⟩
  · rintro ⟨d, hhead, hd⟩
    obtain ⟨after, hafter⟩ := List.head?_eq_some_iff.mp hhead
    exact ⟨_, d, after, by rw [← htext, hafter], hstop, hd⟩

/-- In every text a number with a sign comes first or after a token that asks for an operand, and
a minus sign that subtracts, though a digit comes right after it, comes after a token that ends
one. -/
theorem signs_by_place (text : String) (before after : List (Token Category)) (t : Token Category)
    (htokens : (tokens text).toList = before ++ t :: after) :
    (t.category = .number → t.text.toList.head? = some '-' →
      ∀ l ∈ lastVisible before, AsksOperand l) ∧
    (t.category = .operator → t.text = "-" → DigitNext text t →
      ∃ l ∈ lastVisible before, EndsOperand l) := by
  rw [tokens, List.toList_toArray] at htokens
  obtain ⟨ps, q, qs, hsplit, hbefore, htoken⟩ := Lexis.layOut_split htokens
  obtain ⟨p, operandNext, hmarked, hstep⟩ := step?_of_pieces hsplit
  have hps : ∀ p ∈ ps, Formed p := by
    intro p hp
    apply formed_of_mem (s := text.toList)
    rw [hsplit]
    exact List.mem_append_left _ hp
  have hlast := lastVisible_layOut hps
  rw [hbefore] at hlast
  constructor
  · intro hc hsign
    have hq := Lexis.Piece.eq_token_of_token? htoken (by rw [hc]; decide)
    rw [hc] at hq
    rw [hq] at hmarked hstep
    cases hmarked
    rintro l hl
    rcases hlast with ⟨u, hu, hsettles⟩ | ⟨hnone, -⟩
    · cases hu.symm.trans hl
      exact hsettles.asks ((steps_of_step? hstep).sign ⟨rfl, hsign⟩)
    · cases hnone.symm.trans hl
  · intro hc hminus hdigit
    have hq := Lexis.Piece.eq_token_of_token? htoken (by rw [hc]; decide)
    rw [hc, hminus] at hq
    have htext := (scan_pieces text.toList).append
    rw [hsplit, List.append_nil] at htext
    obtain ⟨d, hnext, hd⟩ := (digitNext_iff htext htoken).mp hdigit
    rw [hq] at hmarked hstep
    cases hmarked
    have hfalse : ps.foldl operandPast true = false := by
      by_contra htrue
      rw [Bool.not_eq_false] at htrue
      exact (steps_of_step? hstep).ends d hnext (.inr ⟨rfl, htrue, hd⟩)
    rcases hlast with ⟨u, hu, hsettles⟩ | ⟨-, htrue⟩
    · exact ⟨u, hu, hsettles.ends hfalse⟩
    · rw [htrue] at hfalse
      cases hfalse

theorem signs_by_place_recovered :
    (∃ l ∈ lastVisible ((tokens "(a) /* b */ -3 # */ -4").toList.take 4), EndsOperand l) ∧
      ∀ l ∈ lastVisible ((tokens "(a) /* b */ -3 # */ -4").toList.take 8), AsksOperand l := by
  have hminus : (tokens "(a) /* b */ -3 # */ -4").toList =
      (tokens "(a) /* b */ -3 # */ -4").toList.take 4 ++ Token.ofRun .operator 12 ['-'] none ::
        (tokens "(a) /* b */ -3 # */ -4").toList.drop 5 := by decide +kernel
  have hnumber : (tokens "(a) /* b */ -3 # */ -4").toList =
      (tokens "(a) /* b */ -3 # */ -4").toList.take 8 ++
        Token.ofRun .number 20 ['-', '4'] none :: [] := by decide +kernel
  have hdigit : DigitNext "(a) /* b */ -3 # */ -4" (Token.ofRun .operator 12 ['-'] none) :=
    ⟨"(a) /* b */ -".toList, '3', " # */ -4".toList, by decide, by decide, by decide⟩
  exact ⟨(signs_by_place _ _ _ _ hminus).2 rfl rfl hdigit,
    (signs_by_place _ _ _ _ hnumber).1 rfl (by decide)⟩

end GraphScribe.Condition
