import GraphScribe.Proofs.Condition.Steps

/-! # Conditions before another tail

What is read without a fault is spelled as its category says, and is read again wherever the next
character does not go on with it. The front of a text without faults can therefore be moved before
any text that begins with a blank. -/
namespace GraphScribe.Condition

open Lexis (gap? readName NameEnds)
open Text (byteLength)

def IsClean (p : Piece) : Prop := ∀ f r, p ≠ .fault f r

theorem wordEnds_of_head {s : List Char}
    (h : ∀ a, s.head? = some a → Text.isWordChar a = false) : Text.wordEnds s = true := by
  cases s with
  | nil => rfl
  | cons a s => simpa [Text.wordEnds] using h a rfl

theorem Word.wordEnds {signed : Bool} {s r t : List Char} {c : Category} (h : Word signed s c r t)
    (hname : NameEnds s) : Text.wordEnds s = true := by
  have named : ∀ {r t : List Char}, readName s ≠ some (r, t) := by
    intro r t hread
    obtain ⟨hshape, -, rfl⟩ := Lexis.readName_eq_some_iff.mp hread
    cases r with
    | nil => exact hshape
    | cons a r =>
      have hpart := hname a rfl
      rw [Lexis.isNamePart_of_isNameStart hshape.1] at hpart
      cases hpart
  apply wordEnds_of_head
  intro a ha
  cases h with
  | keyword hread => exact absurd (read?_keyword.mp hread).1 named
  | identifier _ hread => exact absurd hread named
  | number _ hread =>
    obtain ⟨ds, hne, hds, hr, -⟩ := readNumber_cases hread
    have happ := Lexis.readNumber_append hread
    rcases hr with rfl | rfl
    · obtain ⟨d, ds, rfl⟩ := List.exists_cons_of_ne_nil hne
      have hpart := hname a ha
      rw [← happ] at ha
      cases ha
      rw [Lexis.isNamePart_of_isDigit (hds _ List.mem_cons_self)] at hpart
      cases hpart
    · rw [← happ] at ha
      cases ha
      decide
  | quotedString hread =>
    rw [Lexis.readQuotation.eq_def] at hread
    split at hread
    · cases ha
      decide
    · cases hread
  | operator _ hread =>
    obtain ⟨w, hw, hcut⟩ := List.exists_of_findSome?_eq_some hread
    obtain ⟨-, rfl⟩ := Lexis.cut?_eq_some_iff.mp hcut
    have hheads : operators.all (fun w => w.toList.head?.all fun a => !Text.isWordChar a) = true :=
      by decide
    have hhead := List.all_eq_true.mp hheads w hw
    obtain ⟨b, r, hlist⟩ := List.exists_cons_of_ne_nil (operators_ne_nil w hw)
    rw [hlist] at ha hhead
    cases ha
    simpa using hhead

/-- What is read without a fault where a name ends begins with no word character. -/
theorem Steps.wordEnds {operandNext : Bool} {s : List Char} {step : Step}
    (h : Steps operandNext s step) (hclean : IsClean step.piece) (hname : NameEnds s) :
    Text.wordEnds s = true := by
  cases h with
  | gap hgap =>
    rcases Lexis.gap?_cases hgap with ⟨-, -, hblank⟩ | ⟨r, -, hr⟩
    · obtain ⟨a, run, hrun⟩ := List.exists_cons_of_ne_nil hblank
      have happ : s.takeWhile Text.isBlank ++ s.dropWhile Text.isBlank = s :=
        List.takeWhile_append_dropWhile
      have ha : Text.isBlank a = true :=
        List.all_eq_true.mp List.all_takeWhile a (by rw [hrun]; exact List.mem_cons_self)
      rw [← happ, hrun, List.cons_append, Text.wordEnds, Lexis.isWordChar_of_isBlank ha]
      rfl
    · obtain ⟨body, rfl, _⟩ := Lexis.readComment_cases hr
      rw [← Lexis.readComment_append hr]
      rfl
  | strayCommentClose => exact absurd rfl (hclean _ _)
  | openParen hread =>
    obtain ⟨-, rfl⟩ := (read?_paren rfl).mp hread
    rfl
  | closeParen hread =>
    obtain ⟨-, rfl⟩ := (read?_paren rfl).mp hread
    rfl
  | word _ hword => exact (word_of_readAny? hword).wordEnds hname
  | unexpected => exact absurd rfl (hclean _ _)

theorem Word.spelled {signed : Bool} {s r t : List Char} {c : Category} (h : Word signed s c r t)
    (hword : NameEnds t → Text.wordEnds t = true) : Spelled c r := by
  cases h with
  | keyword hread =>
    obtain ⟨-, hmem, -⟩ := read?_keyword.mp hread
    rw [← String.toList_ofList (l := r)]
    exact .keyword hmem
  | number _ hread =>
    obtain ⟨ds, hne, hds, rfl | rfl, -⟩ := readNumber_cases hread
    · exact .number hne hds
    · exact .signed hne hds
  | quotedString hread =>
    rw [Lexis.readQuotation.eq_def] at hread
    split at hread
    · split at hread
      · cases hread
        apply Spelled.quotedString
        intro a ha
        have hquotable := List.all_eq_true.mp List.all_takeWhile a ha
        simpa [Lexis.isQuotable] using hquotable
      · cases hread
    · cases hread
  | identifier hkeyword hread =>
    obtain ⟨hshape, hends, -⟩ := Lexis.readName_eq_some_iff.mp hread
    refine .identifier hshape ?_
    intro hmem
    rw [read?_keyword.mpr ⟨hread, hmem, hword hends⟩] at hkeyword
    cases hkeyword
  | operator _ hread =>
    obtain ⟨w, hw, hcut⟩ := List.exists_of_findSome?_eq_some hread
    obtain ⟨rfl, -⟩ := Lexis.cut?_eq_some_iff.mp hcut
    exact .operator hw

theorem Steps.spelled {operandNext after : Bool} {s r t : List Char} {c : Category}
    (h : Steps operandNext s ⟨.token c r, after, t⟩) (hc : c ≠ .comment)
    (hword : NameEnds t → Text.wordEnds t = true) : Spelled c r := by
  cases h with
  | gap hgap => exact absurd (comment_of_gap? hgap) hc
  | openParen hread =>
    obtain ⟨rfl, -⟩ := (read?_paren rfl).mp hread
    exact .openParen
  | closeParen hread =>
    obtain ⟨rfl, -⟩ := (read?_paren rfl).mp hread
    exact .closeParen
  | word _ hread => exact (word_of_readAny? hread).spelled hword

theorem Steps.comment {operandNext after : Bool} {s r t : List Char}
    (h : Steps operandNext s ⟨.token .comment r, after, t⟩) :
    gap? (κ := Category) (φ := Fault) s = some (.token .comment r, t) := by
  cases h with
  | gap hgap => exact hgap
  | word _ hword => cases isWord_of_readAny? hword

/-- All of the text is read without a fault. -/
def ReadsClean (operandNext : Bool) (s : List Char) : Prop := ∀ p ∈ scan operandNext s, IsClean p

theorem ReadsClean.wordEnds {operandNext : Bool} {s : List Char} (h : ReadsClean operandNext s)
    (hname : NameEnds s) : Text.wordEnds s = true := by
  cases hscan : scan operandNext s with
  | nil =>
    have htext := text_scan operandNext s
    rw [hscan] at htext
    rw [← htext]
    rfl
  | cons p ps =>
    have hstep := steps_of_step? (step?_of_scan_cons hscan).1
    exact hstep.wordEnds (h p (by rw [hscan]; exact List.mem_cons_self)) hname

theorem ReadsClean.cons {operandNext : Bool} {s : List Char} {p : Piece} {ps : List Piece}
    (h : ReadsClean operandNext s) (hscan : scan operandNext s = p :: ps) :
    IsClean p ∧ ReadsClean (operandPast operandNext p) (Lexis.Piece.text ps) := by
  rw [ReadsClean, hscan, List.forall_mem_cons] at h
  rw [ReadsClean, (step?_of_scan_cons hscan).2]
  exact h

/-- A token that begins a text without faults is read again before whatever does not go on with it,
and wherever its sign may come. -/
theorem step?_again {operandNext : Bool} {s r : List Char} {c : Category} {ps : List Piece}
    (h : ReadsClean operandNext s) (hscan : scan operandNext s = .token c r :: ps)
    (hc : c ≠ .comment) {operandNext' : Bool} {t : List Char}
    (hsign : Signed c r → operandNext' = true) (ht : Ends operandNext' c r t) :
    step? operandNext' (r ++ t) = some ⟨.token c r, operandAfter operandNext' c r, t⟩ := by
  have hstep := steps_of_step? (step?_of_scan_cons hscan).1
  exact step?_spelled (hstep.spelled hc (h.cons hscan).2.wordEnds) ht hsign

def lexemeOf? : Piece → Option Lexeme
  | .blank _ => none
  | .token c r => some (c, String.ofList r)
  | .fault _ r => some (.error, String.ofList r)

def scanned (operandNext : Bool) (s : List Char) : List Lexeme :=
  (scan operandNext s).filterMap lexemeOf?

theorem scanned_of_step? {operandNext : Bool} {s : List Char} {step : Step}
    (h : step? operandNext s = some step) : scanned operandNext s =
      (lexemeOf? step.piece).toList ++ scanned step.operandNext step.rest := by
  rw [scanned, scan_of_step? h, List.filterMap_cons]
  cases lexemeOf? step.piece <;> rfl

theorem scanned_dropBlank (operandNext : Bool) (s : List Char) :
    scanned operandNext (Text.dropBlank s) = scanned operandNext s := by
  by_cases hs : s.takeWhile Text.isBlank = []
  · rw [Lexis.dropBlank_of_takeWhile hs]
  · have hgap := Lexis.gap?_of_takeWhile (κ := Category) (φ := Fault) hs
    have hstep : step? operandNext s =
        some ⟨.blank (s.takeWhile Text.isBlank), operandNext, Text.dropBlank s⟩ := by
      rw [step?, hgap]
    rw [scanned_of_step? hstep]
    rfl

theorem scanned_blanks {run : List Char} (h : ∀ c ∈ run, Text.isBlank c = true)
    (operandNext : Bool) (s : List Char) :
    scanned operandNext (run ++ s) = scanned operandNext s := by
  rw [← scanned_dropBlank, Lexis.dropBlank_append h, scanned_dropBlank]

theorem scanned_front {operandNext : Bool} {s : List Char} {before after : List Piece}
    (h : ReadsClean operandNext s) (hscan : scan operandNext s = before ++ after)
    (hafter : after ≠ []) {t : List Char} (ht : Apart t) :
    scanned operandNext (Lexis.Piece.text before ++ t) =
      before.filterMap lexemeOf? ++ scanned (before.foldl operandPast operandNext) t := by
  induction before generalizing operandNext s with
  | nil => rfl
  | cons p before ih =>
    rw [List.cons_append] at hscan
    obtain ⟨hclean, hrest⟩ := h.cons hscan
    obtain ⟨hstep, hscan'⟩ := step?_of_scan_cons hscan
    have ih := ih hrest hscan'
    rw [Lexis.Piece.text_cons, List.append_assoc]
    cases p with
    | blank run =>
      have hblank : ∀ c ∈ run, Text.isBlank c = true :=
        (scans_scan operandNext s).proper (.blank run) (by rw [hscan]; exact List.mem_cons_self)
      rw [Lexis.Piece.run_blank, scanned_blanks hblank]
      exact ih
    | fault f r => exact absurd rfl (hclean f r)
    | token c r =>
      have hagain : step? operandNext (r ++ (Lexis.Piece.text before ++ t)) =
          some ⟨.token c r, operandAfter operandNext c r, Lexis.Piece.text before ++ t⟩ := by
        have hne : Lexis.Piece.text (before ++ after) ≠ [] := by
          intro hnil
          rw [hnil, scan_nil] at hscan'
          exact hafter (List.append_eq_nil_iff.mp hscan'.symm).2
        by_cases hc : c = .comment
        · subst hc
          have hgap := (steps_of_step? hstep).comment
          rw [step?, Lexis.gap?_comment_tail hgap hne]
          rfl
        · apply step?_again h hscan hc (steps_of_step? hstep).sign
          by_cases hbefore : Lexis.Piece.text before = []
          · rw [hbefore]
            exact ht.ends _ _ _
          · apply (steps_of_step? hstep).ends.congr
            rw [Lexis.Piece.text_append, List.head?_append_of_ne_nil _ hbefore,
              List.head?_append_of_ne_nil _ hbefore]
      rw [Lexis.Piece.run_token, scanned_of_step? hagain]
      exact congrArg _ ih

theorem eq_of_marked {ps qs : List Piece} (h : List.Forall₂ Marked ps qs)
    (hclean : ∀ q ∈ qs, IsClean q) : qs = ps := by
  induction h with
  | nil => rfl
  | cons hp _ ih =>
    obtain ⟨hq, hqs⟩ := List.forall_mem_cons.mp hclean
    rw [ih hqs]
    cases hp with
    | keep => rfl
    | strayClose => exact absurd rfl (hq _ _)
    | unclosed => exact absurd rfl (hq _ _)

theorem clean_of_no_errors {text : String} (h : Tokens.hasErrors (tokens text) = false) :
    ∀ p ∈ pieces text.toList, IsClean p := by
  rintro p hp f r rfl
  obtain ⟨before, after, hsplit⟩ := List.append_of_mem hp
  obtain ⟨t, ht, herror⟩ : ∃ t ∈ (tokens text).toList, t.isError = true := by
    rw [tokens, List.toList_toArray]
    exact ⟨_, Lexis.mem_layOut.mpr ⟨before, _, after, hsplit, rfl⟩, rfl⟩
  rw [Tokens.hasErrors, Array.any_eq_false'] at h
  exact h t (Array.mem_toList_iff.mp ht) herror

theorem scan_of_no_errors {text : String} (h : Tokens.hasErrors (tokens text) = false) :
    pieces text.toList = scan true text.toList ∧ ReadsClean true text.toList := by
  have hclean := clean_of_no_errors h
  have hscan := eq_of_marked (pieces_marked text.toList) hclean
  rw [hscan] at hclean
  exact ⟨hscan, hclean⟩

/-- The pieces of `a ++ b` where its second part begins with the first of the tokens `ts`. -/
structure Parted (a b : String) (ts : List (Token Category)) (before after : List Piece) :
    Prop where
  split : scan true (a ++ b).toList = before ++ after
  clean : ReadsClean true (a ++ b).toList
  front : Lexis.Piece.text before = a.toList
  rest : Lexis.Piece.text after = b.toList
  laid : Lexis.layOut (0 + byteLength (Lexis.Piece.text before)) after = ts
  nonempty : after ≠ []

theorem exists_parted {a b : String} {before after : List (Token Category)} {t : Token Category}
    (hclean : Tokens.hasErrors (tokens (a ++ b)) = false)
    (htokens : (tokens (a ++ b)).toList = before ++ t :: after)
    (hstart : t.start = byteLength a.toList) : ∃ ps qs, Parted a b (t :: after) ps qs := by
  obtain ⟨hpieces, hreads⟩ := scan_of_no_errors hclean
  have hlayout : Lexis.layOut 0 (scan true (a ++ b).toList) = before ++ t :: after := by
    rw [← htokens, tokens, hpieces]
  obtain ⟨ps, p, qs, hscan, hbefore, htoken⟩ := Lexis.layOut_split hlayout
  have htext : Lexis.Piece.text ps ++ Lexis.Piece.text (p :: qs) = a.toList ++ b.toList := by
    rw [← Lexis.Piece.text_append, ← hscan, text_scan, String.toList_append]
  have hlength : byteLength (Lexis.Piece.text ps) = byteLength a.toList := by
    rw [← hstart, (Lexis.Piece.token?_span htoken).1, Nat.zero_add]
  obtain ⟨hfront, hrest⟩ := Text.append_inj_of_byteLength htext hlength
  rw [hscan, Lexis.layOut_append, hbefore] at hlayout
  exact ⟨ps, p :: qs, hscan, hreads, hfront, hrest, List.append_cancel_left hlayout, by simp⟩

section Parted

variable {a b : String} {ts : List (Token Category)} {before after : List Piece}
  (h : Parted a b ts before after)
include h

theorem Parted.scan_rest : scan (before.foldl operandPast true) b.toList = after := by
  rw [← h.rest]
  exact scan_of_scan_append h.split

theorem Parted.clean_rest : ReadsClean (before.foldl operandPast true) b.toList := by
  intro p hp
  rw [h.scan_rest] at hp
  apply h.clean
  rw [h.split]
  exact List.mem_append_right _ hp

theorem Parted.scanned_eq : scanned true (a ++ b).toList =
    before.filterMap lexemeOf? ++ scanned (before.foldl operandPast true) b.toList := by
  rw [scanned, h.split, List.filterMap_append, scanned, h.scan_rest]

theorem Parted.scanned_with {w : String} {c : Char} (hw : w.toList.head? = some c)
    (hc : Text.isBlank c = true) : scanned true (a ++ w ++ b).toList =
      before.filterMap lexemeOf? ++
        scanned (before.foldl operandPast true) (w.toList ++ b.toList) := by
  rw [String.toList_append, String.toList_append, List.append_assoc, ← h.front]
  apply scanned_front h.clean h.split h.nonempty
  intro d hd
  rw [List.head?_append, hw] at hd
  cases hd
  exact hc

end Parted

end GraphScribe.Condition
