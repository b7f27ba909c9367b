import GraphScribe.Editor.Session
import GraphScribe.Proofs.Condition.Scan
import GraphScribe.Proofs.Program.Scan

/-! # What a parse leaves behind

A session may have been edited and parsed in any order before. Its tokens are always those of the
text parsed last, so after a further parse they are those of the text at hand: the scan of that text
has reached its end, and the tokens partition it without loss. -/
namespace GraphScribe

open Lexis (Scan)

variable {κ : Type}

inductive Session.Edit where
  | setText (text : String)
  | parse
  | parseText (text : String)
  deriving DecidableEq, Repr

namespace Session

variable [Language κ]

def edit (s : Session κ) : Edit → Session κ
  | .setText text => s.setText text
  | .parse => s.parse.1
  | .parseText text => (s.parseText text).1

def after (edits : List Edit) : Session κ := edits.foldl edit {}

/-- The tokens at hand are those of the text parsed last. -/
def Current (s : Session κ) : Prop :=
  ∀ text, s.parsed = some text → s.tokens = Language.tokenize text

theorem parse_current {s : Session κ} (h : s.Current) :
    s.parse.1.Current ∧ s.parse.1.tokens = Language.tokenize s.text := by
  unfold parse
  split
  · rename_i hsame
    exact ⟨h, h s.text hsame⟩
  · refine ⟨?_, rfl⟩
    intro text htext
    cases htext
    rfl

theorem edit_current {s : Session κ} (h : s.Current) (e : Edit) : (s.edit e).Current := by
  cases e with
  | setText text => exact h
  | parse => exact (parse_current h).1
  | parseText text => exact (parse_current (s := s.setText text) h).1

theorem after_current (edits : List Edit) : (after edits : Session κ).Current := by
  have run : ∀ s : Session κ, s.Current → (edits.foldl edit s).Current := by
    induction edits with
    | nil => exact fun s h => h
    | cons e edits ih => exact fun s h => ih (s.edit e) (edit_current h e)
  refine run {} ?_
  intro text htext
  cases htext

/-- Whatever was done before, parsing a text gives the tokens of that text. -/
theorem tokens_parseText (edits : List Edit) (text : String) :
    ((after edits : Session κ).parseText text).1.tokens = Language.tokenize text :=
  (parse_current (s := (after edits).setText text) (after_current edits)).2

end Session

theorem Lexis.Scan.partition {φ : Type} [DecidableEq κ] [Lexicon κ] [Lexis.Describable φ]
    {as : Lexis.Recast κ} {s : List Char} {ps : List (Lexis.Piece κ φ)} (h : Scan as s ps []) :
    Tokens.Partition s (Lexis.layOut 0 ps).toArray := by
  have htext := h.append
  rw [List.append_nil] at htext
  have := Lexis.layOut_partition h.proper
  rwa [htext] at this

/-- In both languages a parse reads its text from the first character to the last, and its tokens
are non-empty, verbatim, in order, disjoint, and leave out blank characters only. -/
theorem parse_partitions_text (edits : List Session.Edit) (text : String) :
    (Scan Program.recast text.toList (Program.pieces text.toList) [] ∧
      Tokens.Partition text.toList
        ((Session.after edits : Session Program.Category).parseText text).1.tokens) ∧
    (Scan Condition.recast text.toList (Condition.pieces text.toList) [] ∧
      Tokens.Partition text.toList
        ((Session.after edits : Session Condition.Category).parseText text).1.tokens) := by
  have hp := Program.scan_pieces text.toList
  have hc := Condition.scan_pieces text.toList
  rw [Session.tokens_parseText, Session.tokens_parseText]
  exact ⟨⟨hp, hp.partition⟩, ⟨hc, hc.partition⟩⟩

end GraphScribe
