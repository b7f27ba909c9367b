import GraphScribe.Proofs.Condition.Locality

/-! # Blanks and comments between lexemes

Before any token of a condition without errors, blanks can be put in, or blanks and a comment, and
all tokens but the comments stay what they are. Lexemes that touch are told apart by where each of
them ends and by whether an operand may come; neither changes when a blank comes between them. -/
namespace GraphScribe.Condition

open Lexis (Filler)

/-- What a text says, comments aside. -/
def uncommented (text : String) : List Lexeme := (lexemes text).filter (·.1 ≠ .comment)

theorem hasErrors_eq_false_iff {text : String} :
    Tokens.hasErrors (tokens text) = false ↔ ∀ l ∈ uncommented text, l.1 ≠ .error := by
  rw [Tokens.hasErrors, Array.any_eq_false']
  simp only [uncommented, lexemes, List.mem_filter, List.mem_map, Array.mem_toList_iff]
  constructor
  · rintro h l ⟨⟨t, ht, rfl⟩, -⟩ herror
    exact h t ht (decide_eq_true herror)
  · intro h t ht herror
    have hc : t.category = .error := of_decide_eq_true herror
    exact h (t.category, t.text) ⟨⟨t, ht, rfl⟩, by simp [hc]⟩ hc

/-- Before a text a filler adds a comment at most, and keeps what the reader knows. -/
theorem scanned_filler {w : List Char} (hw : Filler w) (operandNext : Bool) (s : List Char) :
    ∃ comments : List Lexeme, (∀ l ∈ comments, l.1 = .comment) ∧
      scanned operandNext (w ++ s) = comments ++ scanned operandNext s := by
  cases hw with
  | blanks _ hblank => exact ⟨[], by simp, scanned_blanks hblank operandNext s⟩
  | @comment lead body trail hlead hbody htrail =>
    have hgap := Lexis.gap?_comment (κ := Category) (φ := Fault) hbody (trail ++ s)
    have hstep : step? operandNext ('/' :: '*' :: (body ++ (trail ++ s))) =
        some ⟨.token .comment ('/' :: '*' :: body), operandNext, trail ++ s⟩ := by
      rw [step?, hgap]
      rfl
    refine ⟨[(.comment, String.ofList ('/' :: '*' :: body))], by simp, ?_⟩
    calc scanned operandNext (lead ++ ('/' :: '*' :: body ++ trail) ++ s)
        = scanned operandNext ('/' :: '*' :: (body ++ (trail ++ s))) := by
          rw [List.append_assoc, scanned_blanks hlead]
          simp
      _ = (.comment, String.ofList ('/' :: '*' :: body)) :: scanned operandNext (trail ++ s) :=
          scanned_of_step? hstep
      _ = _ := by
          rw [scanned_blanks htrail]
          rfl

theorem filter_comments {comments : List Lexeme} (h : ∀ l ∈ comments, l.1 = .comment) :
    comments.filter (·.1 ≠ .comment) = [] := by
  simpa [List.filter_eq_nil_iff] using h

theorem pairsOf_append (ls ms : List Lexeme) : pairsOf (ls ++ ms) = pairsOf ls ++ pairsOf ms :=
  List.filterMap_append

theorem pairsOf_comments {comments : List Lexeme} (h : ∀ l ∈ comments, l.1 = .comment) :
    pairsOf comments = [] := by
  rw [pairsOf, List.filterMap_eq_nil_iff]
  intro l hl
  simp [h l hl]

/-- A filler that begins with a blank leaves the lexemes as they are, but for a comment of its
own. -/
theorem Parted.lexemes_filled {a b w : String} {ts : List (Token Category)}
    {before after : List Piece} (h : Parted a b ts before after)
    (hclean : Tokens.hasErrors (tokens (a ++ b)) = false) (hw : Filler w.toList)
    (hblank : Apart w.toList) : uncommented (a ++ w ++ b) = uncommented (a ++ b) := by
  obtain ⟨c, u, hcu⟩ := List.exists_cons_of_ne_nil hw.ne_nil
  have hhead : w.toList.head? = some c := by rw [hcu]; rfl
  obtain ⟨comments, hcomments, hfilled⟩ :=
    scanned_filler hw (before.foldl operandPast true) b.toList
  have hnew := h.scanned_with hhead (hblank c hhead)
  rw [hfilled] at hnew
  have hold : lexemes (a ++ b) = scanned true (a ++ b).toList := by
    rw [lexemes_eq, (scan_of_no_errors hclean).1]
    rfl
  have hpairs : pairsOf (scanned true (a ++ w ++ b).toList) =
      pairsOf (scanned true (a ++ b).toList) := by
    rw [hnew, h.scanned_eq, pairsOf_append, pairsOf_append, pairsOf_append,
      pairsOf_comments hcomments, List.nil_append]
  have hsame : lexemes (a ++ w ++ b) = scanned true (a ++ w ++ b).toList := by
    apply lexemes_of_pairs
    rw [hpairs, pairsOf_scanned, ← pieces_eq_scan_iff]
    exact (scan_of_no_errors hclean).1
  rw [uncommented, uncommented, hsame, hold, hnew, h.scanned_eq]
  simp only [List.filter_append]
  rw [filter_comments hcomments, List.nil_append]

/-- Before any token of a text without errors, blanks, or blanks and a comment, change no other
token and cause no error. -/
theorem uncommented_insert (a w b : String) (hclean : Tokens.hasErrors (tokens (a ++ b)) = false)
    (hstart : ∃ t ∈ tokens (a ++ b), t.start = Text.byteLength a.toList) (hw : Filler w.toList)
    (hblank : Apart w.toList) :
    uncommented (a ++ w ++ b) = uncommented (a ++ b) ∧
      Tokens.hasErrors (tokens (a ++ w ++ b)) = false := by
  obtain ⟨t, ht, hstart⟩ := hstart
  obtain ⟨before, after, htokens⟩ := List.append_of_mem (Array.mem_toList_iff.mpr ht)
  obtain ⟨ps, qs, hparted⟩ := exists_parted hclean htokens hstart
  have hsame := hparted.lexemes_filled hclean hw hblank
  refine ⟨hsame, ?_⟩
  rw [hasErrors_eq_false_iff, hsame]
  exact hasErrors_eq_false_iff.mp hclean

/-- Between a minus sign that subtracts and the sign of a number, which touch, a comment leaves both
as they are; the parenthesis in it has no partner. -/
theorem uncommented_insert_signs :
    Tokens.hasErrors (tokens ("not(x)-" ++ "-3")) = false ∧
      (∃ t ∈ tokens ("not(x)-" ++ "-3"), t.start = Text.byteLength "not(x)-".toList) ∧
      uncommented ("not(x)-" ++ " /* ) */ " ++ "-3") = uncommented ("not(x)-" ++ "-3") ∧
      Tokens.hasErrors (tokens ("not(x)-" ++ " /* ) */ " ++ "-3")) = false :=
  have hclean : Tokens.hasErrors (tokens ("not(x)-" ++ "-3")) = false := by decide +kernel
  have hstart : ∃ t ∈ tokens ("not(x)-" ++ "-3"),
      t.start = Text.byteLength "not(x)-".toList := by decide +kernel
  have hbody : Lexis.closing? [' ', ')', ' ', '*', '/'] =
      some ([' ', ')', ' ', '*', '/'], []) := by decide +kernel
  have hspace : ∀ c ∈ [' '], Text.isBlank c = true := List.forall_mem_singleton.mpr (by decide)
  have hw : Filler " /* ) */ ".toList := .comment hspace hbody hspace
  have hblank : Apart " /* ) */ ".toList := apart_blank (by decide) _
  ⟨hclean, hstart, uncommented_insert _ _ _ hclean hstart hw hblank⟩

/-- A comment right after a star would complete a closing mark. -/
example : Tokens.hasErrors (tokens ("a*" ++ "b")) = false ∧
    Tokens.hasErrors (tokens ("a*" ++ "/* c */" ++ "b")) = true := by decide +kernel

end GraphScribe.Condition
