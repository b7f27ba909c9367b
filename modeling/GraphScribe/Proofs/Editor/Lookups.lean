import GraphScribe.Proofs.Editor.Transparency

/-! # Look-ups in an editor

An editor asks for the tokens of a range and for the error under the pointer. Bisection answers as a
scan of the tokens would, whatever range or offset is asked for, as long as the tokens are in order
and none is empty; that they are holds of every parse, and so of a session and of a buffer after any
events. -/
namespace GraphScribe

variable {κ : Type}

theorem Program.tokens_ordered (text : String) : Tokens.Ordered (Program.tokens text) :=
  (Program.scan_pieces text.toList).partition.toOrdered

theorem Condition.tokens_ordered (text : String) : Tokens.Ordered (Condition.tokens text) :=
  (Condition.scan_pieces text.toList).partition.toOrdered

theorem Tokens.ordered_empty : Tokens.Ordered (#[] : Tokens κ) := ⟨by simp, by simp⟩

section Editing

variable [Language κ]

theorem Session.parse_ordered (hread : ∀ text, (Language.tokenize text : Tokens κ).Ordered)
    {s : Session κ} (h : s.tokens.Ordered) : s.parse.1.tokens.Ordered := by
  unfold parse
  split
  · exact h
  · exact hread s.text

theorem Session.edits_ordered (hread : ∀ text, (Language.tokenize text : Tokens κ).Ordered)
    {s : Session κ} (h : s.tokens.Ordered) (edits : List Edit) :
    (edits.foldl edit s).tokens.Ordered := by
  induction edits generalizing s with
  | nil => exact h
  | cons e edits ih =>
    apply ih
    cases e with
    | setText text => exact h
    | parse => exact parse_ordered hread h
    | parseText text => exact parse_ordered (s := s.setText text) hread h

/-- The tokens of a buffer are in order after any edits of its session and any events of its own. -/
theorem Buffer.after_ordered [DecidableEq κ]
    (hread : ∀ text, (Language.tokenize text : Tokens κ).Ordered) (edits : List Session.Edit)
    (styles : StyleSheet) (events : List Event) :
    ((Buffer.mk (Session.after edits : Session κ) styles).after events).tokens.Ordered := by
  rw [Buffer.tokens, after_session]
  exact Session.edits_ordered hread
    (Session.edits_ordered hread Tokens.ordered_empty edits) (events.filterMap Event.edit?)

end Editing

/-- The look-ups answer as a scan of all tokens would. -/
structure Tokens.AnswersScan (ts : Tokens κ) : Prop where
  overlapping : ∀ start stop,
    (ts.overlapping start stop).toList = ts.toList.filter fun t => t.intersects start stop
  together : ∀ start stop, (ts.overlapping start stop).toList <:+: ts.toList
  at_iff : ∀ offset t, ts.at? offset = some t ↔ t ∈ ts.toList ∧ t.contains offset = true
  alone : ∀ offset, (ts.toList.filter fun t => t.contains offset) = (ts.at? offset).toList

theorem Tokens.Ordered.answersScan {ts : Tokens κ} (h : ts.Ordered) : ts.AnswersScan where
  overlapping := h.overlapping_eq_filter
  together := ts.overlapping_infix
  at_iff _ _ := h.at?_eq_some_iff
  alone := h.contains_alone

/-- On tokens in order the look-ups answer as a scan would, and the diagnostic under an offset is
the token there if it is an error. Every buffer of either language has its tokens in order after any
events. -/
theorem lookups_answer_scan [DecidableEq κ] [Language κ] {ts : Tokens κ} (h : ts.Ordered) :
    ts.AnswersScan ∧
      (∀ b : Buffer κ, b.tokens = ts → ∀ offset t, b.diagnosticAt? offset = some t ↔
        ts.at? offset = some t ∧ t.category = Lexicon.error) ∧
      ∀ edits styles events,
        ((Buffer.mk (Session.after edits : Session Program.Category) styles).after
            events).tokens.Ordered ∧
          ((Buffer.mk (Session.after edits : Session Condition.Category) styles).after
            events).tokens.Ordered := by
  refine ⟨h.answersScan, ?_, ?_⟩
  · rintro b rfl offset t
    rw [Buffer.diagnosticAt?, Tokens.diagnosticAt?, Option.filter_eq_some_iff, Token.isError,
      decide_eq_true_eq]
  · intro edits styles events
    exact ⟨Buffer.after_ordered Program.tokens_ordered edits styles events,
      Buffer.after_ordered Condition.tokens_ordered edits styles events⟩

def touching : Tokens Condition.Category :=
  #[⟨0, 4, .keyword, "node", none⟩, ⟨4, 5, .operator, ">", none⟩,
    ⟨7, 8, .error, "?", some "Unexpected token ? at position 7. Expecting a condition."⟩]

/-- A range that ends before it begins still meets the token that both its ends lie in. -/
theorem lookups_answer_scan_touching :
    touching.Ordered ∧ touching.AnswersScan ∧
      ((touching.overlapping 3 1).map (·.text)) = #["node"] ∧ touching.overlapping 5 7 = #[] ∧
      ((touching.at? 4).map (·.text)) = some ">" ∧ touching.at? 5 = none ∧
      ((touching.diagnosticAt? 7).map (·.text)) = some "?" := by
  have hordered : touching.Ordered := ⟨by decide, by decide⟩
  refine ⟨hordered, (lookups_answer_scan hordered).1, ?_, ?_, ?_, ?_, ?_⟩ <;> decide +kernel

end GraphScribe
