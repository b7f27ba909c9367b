import GraphScribe.Proofs.Editor.BlockStyles
import GraphScribe.Proofs.Editor.Parsing
import GraphScribe.Proofs.Lexis.Comments
import GraphScribe.Proofs.Text.Lines

/-! # The styles of lines

Lines are styled one after the other, and only a single bit is carried from one to the next. When
the tokens are those of the text itself, that bit says whether a comment covers the line end between
the two, and the search for the end of a carried comment finds the end of its token. What is drawn
on a line is then the line's part of each token that has one. -/
namespace GraphScribe

open Text (byteLength)
open Lexis (Scan closing? readComment)

variable {κ : Type} [Lexicon κ]

def Tokens.CommentAt (ts : Tokens κ) (i : Nat) : Prop :=
  ∃ t ∈ ts.toList, t.category = Lexicon.comment ∧ t.contains i = true

def Token.IsCommentOf (s : List Char) (t : Token κ) : Prop :=
  ∃ before run after, s = before ++ (run ++ after) ∧ t.start = byteLength before ∧
    t.stop = byteLength (before ++ run) ∧ readComment (run ++ after) = some (run, after)

/-- Tokens in order whose comments are comments of the text. -/
structure Tokens.Fresh (s : List Char) (ts : Tokens κ) : Prop extends ts.Ordered where
  comments : ∀ t ∈ ts.toList, t.category = Lexicon.comment → t.IsCommentOf s

theorem Lexis.Scan.fresh {φ : Type} [DecidableEq κ] [Lexis.Describable φ]
    {as : Lexis.Recast κ} {s : List Char} {ps : List (Lexis.Piece κ φ)}
    (herror : (Lexicon.error : κ) ≠ Lexicon.comment) (h : Scan as s ps []) :
    Tokens.Fresh s (Lexis.layOut 0 ps).toArray := by
  refine ⟨h.partition.toOrdered, ?_⟩
  intro t ht hcomment
  obtain ⟨before, p, after, rfl, hp⟩ := Lexis.mem_layOut.mp (by simpa using ht)
  obtain ⟨hstart, hstop, _⟩ := Lexis.Piece.token?_span hp
  have htext := h.append
  have hreads := h.reads_of_mem
  rw [List.append_nil] at htext hreads
  rw [Nat.zero_add] at hstart hstop
  refine ⟨Lexis.Piece.text before, p.run, Lexis.Piece.text after, ?_, hstart, ?_, ?_⟩
  · rw [← htext, Lexis.Piece.text_append, Lexis.Piece.text_cons]
  · rw [hstop, Text.byteLength_append]
  · cases p with
    | blank r => cases hp
    | token c r =>
      cases hp
      have hc : c = Lexicon.comment := hcomment
      subst hc
      exact hreads.comment
    | fault f r =>
      cases hp
      exact absurd hcomment herror

/-- A line of `s`: the text before it, its block, the return at its end, if any, and the feed with
the text after it, unless it is the last. -/
structure Text.LineOf (s pre block cr tail : List Char) : Prop where
  text : s = pre ++ (block ++ (cr ++ tail))
  cr : cr = [] ∨ cr = ['\r']
  tail : tail = [] ∨ ∃ more, tail = '\n' :: more

section LineEnd

variable {s pre block cr more : List Char} {ts : Tokens κ} {t : Token κ}

theorem Text.LineOf.slash_outside (h : Text.LineOf s pre block cr ('\n' :: more))
    {before after : List Char} (hs : s = before ++ '/' :: after) :
    byteLength before < byteLength (pre ++ block) ∨
      byteLength (pre ++ (block ++ cr)) < byteLength before := by
  by_contra hin
  have heq : (pre ++ block) ++ ((cr ++ ['\n']) ++ more) = before ++ '/' :: after := by
    rw [← hs, h.text]
    simp
  have hhi : byteLength before < byteLength ((pre ++ block) ++ (cr ++ ['\n'])) := by
    have : '\n'.utf8Size = 1 := rfl
    simp only [Text.byteLength_append, Text.byteLength_cons] at hin ⊢
    omega
  obtain ⟨u, v, hrun, _⟩ := Text.mem_run_of_offset heq (by omega) hhi
  have hmem : '/' ∈ cr ++ ['\n'] := by
    rw [hrun]
    simp
  rcases h.cr with rfl | rfl <;> simp at hmem

omit [Lexicon κ] in
theorem Token.IsCommentOf.starts_in_block (ht : t.IsCommentOf s)
    (h : Text.LineOf s pre block cr ('\n' :: more))
    (hle : t.start ≤ byteLength (pre ++ (block ++ cr))) : t.start < byteLength (pre ++ block) := by
  obtain ⟨before, run, after, hs, hstart, _, hread⟩ := ht
  obtain ⟨body, rfl, _⟩ := Lexis.readComment_cases hread
  have := h.slash_outside hs
  omega

omit [Lexicon κ] in
theorem Token.IsCommentOf.ends_past_feed (ht : t.IsCommentOf s)
    (h : Text.LineOf s pre block cr ('\n' :: more)) (hlt : byteLength (pre ++ block) < t.stop) :
    byteLength (pre ++ (block ++ cr)) < t.stop := by
  obtain ⟨before, run, after, hs, _, hstop, hread⟩ := ht
  by_cases hafter : after = []
  · have hlen := congrArg byteLength h.text
    have : '\n'.utf8Size = 1 := rfl
    simp only [hs, hafter, Text.byteLength_append, Text.byteLength_cons, Text.byteLength_nil]
      at hlen hstop ⊢
    omega
  · -- the closing mark ends with a slash, which is not in the line end
    obtain ⟨x, rfl⟩ := List.getLast?_eq_some_iff.mp (Lexis.comment_getLast hread hafter)
    have hs : s = (before ++ x) ++ '/' :: after := by
      rw [hs]
      simp
    have := h.slash_outside hs
    have : '/'.utf8Size = 1 := rfl
    simp only [Text.byteLength_append, Text.byteLength_cons, Text.byteLength_nil] at *
    omega

variable [DecidableEq κ]

/-- Among the tokens of a block one goes on past the block exactly where a comment contains the
feed. -/
theorem Tokens.Fresh.goesOn_iff (hts : ts.Fresh s)
    (h : Text.LineOf s pre block cr ('\n' :: more)) :
    ((ts.toList.filter fun t => t.intersects (byteLength pre) (byteLength (pre ++ block))).any
        (StyleSheet.goesOn (byteLength (pre ++ block)))) = true ↔
      ts.CommentAt (byteLength (pre ++ (block ++ cr))) := by
  simp only [List.any_eq_true, List.mem_filter, StyleSheet.goesOn, Token.intersects,
    Bool.and_eq_true, decide_eq_true_eq]
  have hfeed : byteLength (pre ++ (block ++ cr)) = byteLength (pre ++ block) + byteLength cr := by
    simp only [Text.byteLength_append]
    omega
  have hpre : byteLength (pre ++ block) = byteLength pre + byteLength block :=
    Text.byteLength_append pre block
  constructor
  · rintro ⟨t, ⟨ht, hmeets⟩, hc, hstop⟩
    have hend := (hts.comments t ht hc).ends_past_feed h hstop
    exact ⟨t, ht, hc, (t.contains_iff _).mpr ⟨by omega, hend⟩⟩
  · rintro ⟨t, ht, hc, hin⟩
    obtain ⟨hstart, hstop⟩ := (t.contains_iff _).mp hin
    have hblock := (hts.comments t ht hc).starts_in_block h hstart
    exact ⟨t, ⟨ht, hblock, by omega⟩, hc, by omega⟩

omit [DecidableEq κ] in
/-- A comment that contains a feed goes on to the first closing mark after that feed, or to the end
of the text. -/
theorem Tokens.Fresh.carried {rest : List Char} (hts : ts.Fresh s) (hs : s = pre ++ '\n' :: rest)
    (h : ts.CommentAt (byteLength pre)) :
    ∃ t ∈ ts.toList, t.category = Lexicon.comment ∧ t.start < byteLength (pre ++ ['\n']) ∧
      ∃ w after, rest = w ++ after ∧ t.stop = byteLength (pre ++ ['\n']) + byteLength w ∧
        (closing? rest = some (w, after) ∨ (closing? rest = none ∧ after = [])) := by
  obtain ⟨t, ht, hc, hin⟩ := h
  obtain ⟨hlo, hhi⟩ := (t.contains_iff _).mp hin
  obtain ⟨before, run, after, hs', hstart, hstop, hread⟩ := hts.comments t ht hc
  rw [hstart] at hlo
  rw [hstop] at hhi
  obtain ⟨u, w, rfl, rfl⟩ := Text.mem_run_of_offset (hs'.symm.trans hs) hlo hhi
  have hrest : rest = w ++ after := by
    have heq := hs.symm.trans hs'
    simpa using heq
  refine ⟨t, ht, hc, ?_, w, after, hrest, ?_, ?_⟩
  · have : '\n'.utf8Size = 1 := rfl
    simp only [Text.byteLength_append, Text.byteLength_cons] at hlo ⊢
    omega
  · simp only [hstop, Text.byteLength_append, Text.byteLength_cons, Text.byteLength_nil]
    omega
  · rw [List.append_assoc, List.cons_append, ← hrest] at hread
    exact Lexis.comment_after_line_end hrest.symm hread

end LineEnd

section Lines

variable [DecidableEq κ] {s : List Char} {ts : Tokens κ}

/-- What the highlight of one block must be, given the block that comes next, if any: its ranges are
the parts of the tokens, and its state tells whether a comment covers the feed before the next. -/
structure StyleSheet.LineAgrees (sheet : StyleSheet) (s : List Char) (ts : Tokens κ)
    (block : Nat × List Char) (next : Option (Nat × List Char)) (h : BlockHighlight) : Prop where
  ranges : h.ranges = sheet.lineRanges ts block.1 (block.1 + byteLength block.2)
  state : ∀ b, next = some b → ∃ feed, b.1 = feed + 1 ∧ Text.ByteOf s feed '\n' ∧
    (h.state = .inComment ↔ ts.CommentAt feed)

/-- A state is carried into a text that begins after a feed which a comment contains. -/
def Tokens.CarriedInto (ts : Tokens κ) (pre : List Char) (state : BlockState) : Prop :=
  state = .inComment → ∃ front, pre = front ++ ['\n'] ∧ ts.CommentAt (byteLength front)

omit [Lexicon κ] [DecidableEq κ] in
theorem StyleSheet.stateAfter_eq_inComment (b : Bool) : stateAfter b = .inComment ↔ b = true := by
  cases b <;> simp [stateAfter]

theorem StyleSheet.highlightBlock_normal (sheet : StyleSheet) (hts : ts.Fresh s)
    {pre block cr tail : List Char} (hl : Text.LineOf s pre block cr tail) :
    let h := sheet.highlightBlock ts block (byteLength pre) .normal
    h.ranges = sheet.lineRanges ts (byteLength pre) (byteLength (pre ++ block)) ∧
      ∀ more, tail = '\n' :: more →
        (h.state = .inComment ↔ ts.CommentAt (byteLength (pre ++ (block ++ cr)))) := by
  rw [Text.byteLength_append]
  simp only [StyleSheet.highlightBlock, sheet.highlightTokens_eq hts.toOrdered]
  refine ⟨sheet.flatMap_clip_zero ts.toList, ?_⟩
  rintro more rfl
  rw [← hts.goesOn_iff hl, StyleSheet.stateAfter_eq_inComment, Text.byteLength_append]

/-- With a carried comment, the search for its end agrees with where its token ends. -/
theorem StyleSheet.highlightBlock_inComment (sheet : StyleSheet) (hts : ts.Fresh s)
    (hclass : Lexicon.styleClass (Lexicon.comment : κ) = .comment)
    {pre front block cr tail : List Char} (hl : Text.LineOf s pre block cr tail)
    (hpre : pre = front ++ ['\n']) (hcomment : ts.CommentAt (byteLength front)) :
    let h := sheet.highlightBlock ts block (byteLength pre) .inComment
    h.ranges = sheet.lineRanges ts (byteLength pre) (byteLength (pre ++ block)) ∧
      ∀ more, tail = '\n' :: more →
        (h.state = .inComment ↔ ts.CommentAt (byteLength (pre ++ (block ++ cr)))) := by
  have hs : s = front ++ '\n' :: (block ++ (cr ++ tail)) := by
    rw [hl.text, hpre, List.append_assoc, List.singleton_append]
  obtain ⟨t, ht, hc, hstart, w, after, hw, hstop, hclose⟩ := hts.carried hs hcomment
  rw [← hpre] at hstart hstop
  have hend : byteLength (pre ++ block) = byteLength pre + byteLength block :=
    Text.byteLength_append pre block
  unfold StyleSheet.highlightBlock
  dsimp only
  cases hblock : closing? block with
  | none =>
    -- the comment goes on to the end of the text or past the feed
    have hbeyond : w = block ++ (cr ++ tail) ∨ ∃ x, w = block ++ (cr ++ '\n' :: x) := by
      rcases hclose with hclose | ⟨_, rfl⟩
      · exact Or.inr (Lexis.closing?_beyond_line hl.cr hl.tail hblock hclose)
      · left
        rw [hw, List.append_nil]
    have hcover : byteLength (pre ++ block) ≤ t.stop := by
      rcases hbeyond with rfl | ⟨x, rfl⟩ <;> simp only [Text.byteLength_append] at hstop hend ⊢ <;>
        omega
    constructor
    · rw [sheet.lineRanges_covered hts.toOrdered ht hstart (by omega) hcover, hc, hclass, hend,
        Nat.add_sub_cancel_left]
    · rintro more rfl
      refine iff_of_true rfl ⟨t, ht, hc, (t.contains_iff _).mpr ?_⟩
      have : '\n'.utf8Size = 1 := rfl
      rcases hbeyond with rfl | ⟨x, rfl⟩ <;>
        simp only [Text.byteLength_append, Text.byteLength_cons] at hstop ⊢ <;> omega
  | some c =>
    have hfound := Lexis.closing?_in_line hl.cr hl.tail hblock
    have hw : w = c.1 := by
      rcases hclose with hclose | ⟨hnone, _⟩
      · rw [hfound] at hclose
        exact (Prod.mk.inj (Option.some.inj hclose)).1.symm
      · rw [hfound] at hnone
        cases hnone
    subst hw
    have hin : byteLength c.1 ≤ byteLength block := by
      have := congrArg byteLength (Lexis.closing?_append hblock)
      rw [Text.byteLength_append] at this
      omega
    have hpos := Text.byteLength_pos (Lexis.closing?_ne_nil hblock)
    simp only [sheet.highlightTokens_eq hts.toOrdered]
    constructor
    · rw [sheet.lineRanges_carried hts.toOrdered ht hstart hstop hpos (by omega), hc, hclass, hend]
    · rintro more rfl
      rw [← hts.goesOn_iff hl, StyleSheet.stateAfter_eq_inComment, Text.byteLength_append]

theorem StyleSheet.highlightBlock_agrees (sheet : StyleSheet) (hts : ts.Fresh s)
    (hclass : Lexicon.styleClass (Lexicon.comment : κ) = .comment) {pre block cr tail : List Char}
    (hl : Text.LineOf s pre block cr tail) {state : BlockState} (hin : ts.CarriedInto pre state) :
    let h := sheet.highlightBlock ts block (byteLength pre) state
    h.ranges = sheet.lineRanges ts (byteLength pre) (byteLength (pre ++ block)) ∧
      ∀ more, tail = '\n' :: more →
        (h.state = .inComment ↔ ts.CommentAt (byteLength (pre ++ (block ++ cr)))) := by
  cases state with
  | normal => exact sheet.highlightBlock_normal hts hl
  | inComment =>
    obtain ⟨front, hpre, hcomment⟩ := hin rfl
    exact sheet.highlightBlock_inComment hts hclass hl hpre hcomment

structure StyleSheet.LinesAgree (sheet : StyleSheet) (s : List Char) (ts : Tokens κ)
    (blocks : List (Nat × List Char)) (hs : List BlockHighlight) : Prop where
  length : hs.length = blocks.length
  line : ∀ i b h, blocks[i]? = some b → hs[i]? = some h → sheet.LineAgrees s ts b blocks[i + 1]? h

omit [DecidableEq κ] in
theorem StyleSheet.LinesAgree.cons {sheet : StyleSheet} {b : Nat × List Char} {h : BlockHighlight}
    {blocks : List (Nat × List Char)} {hs : List BlockHighlight}
    (hb : sheet.LineAgrees s ts b blocks[0]? h) (hbs : sheet.LinesAgree s ts blocks hs) :
    sheet.LinesAgree s ts (b :: blocks) (h :: hs) where
  length := congrArg (· + 1) hbs.length
  line := by
    intro i b' h' hb' hh'
    cases i with
    | zero =>
      cases hb'
      cases hh'
      exact hb
    | succ i => exact hbs.line i b' h' hb' hh'

/-- The carried state is right at every line, and so is every line. -/
theorem StyleSheet.highlightBlocks_agree (sheet : StyleSheet) (hts : ts.Fresh s)
    (hclass : Lexicon.styleClass (Lexicon.comment : κ) = .comment) (rest : List Char) :
    ∀ pre state, s = pre ++ rest → ts.CarriedInto pre state →
      sheet.LinesAgree s ts (Text.placeLines (byteLength pre) (Text.lines rest))
        (sheet.highlightBlocks ts state
          (Text.placeLines (byteLength pre) (Text.lines rest))) := by
  induction rest using Text.lines_induction with
  | last l hl =>
    intro pre state hs hin
    obtain ⟨cr, hcr, hsplit⟩ := Text.dropReturn_append l
    have hline : Text.LineOf s pre (Text.dropReturn l) cr [] := by
      refine ⟨?_, hcr, Or.inl rfl⟩
      rw [List.append_nil, ← hsplit, hs]
    obtain ⟨hranges, _⟩ := sheet.highlightBlock_agrees hts hclass hline hin
    rw [Text.lines_of_no_feed hl, Text.placeLines, Text.placeLines, StyleSheet.highlightBlocks]
    refine .cons ⟨?_, ?_⟩ ⟨rfl, fun i b h hb => by cases hb⟩
    · rw [hranges, Text.byteLength_append]
    · rintro b hb
      cases hb
  | next l rest hl ih =>
    intro pre state hs hin
    obtain ⟨cr, hcr, hsplit⟩ := Text.dropReturn_append l
    have hline : Text.LineOf s pre (Text.dropReturn l) cr ('\n' :: rest) := by
      refine ⟨?_, hcr, Or.inr ⟨rest, rfl⟩⟩
      rw [hs, ← List.append_assoc (Text.dropReturn l), ← hsplit]
    obtain ⟨hranges, hstate⟩ := sheet.highlightBlock_agrees hts hclass hline hin
    have hstate := hstate rest rfl
    rw [← hsplit] at hstate
    have hnext : byteLength pre + byteLength l + 1 = byteLength (pre ++ l ++ ['\n']) := by
      simp only [Text.byteLength_append, Text.byteLength_cons, Text.byteLength_nil]
      rfl
    have hmore := ih (pre ++ l ++ ['\n'])
      (sheet.highlightBlock ts (Text.dropReturn l) (byteLength pre) state).state
      (by simp [hs]) (fun h => ⟨pre ++ l, rfl, hstate.mp h⟩)
    rw [Text.lines_append_feed hl, Text.placeLines, StyleSheet.highlightBlocks, hnext]
    refine .cons ⟨?_, ?_⟩ hmore
    · rw [hranges, Text.byteLength_append]
    · intro b hb
      obtain ⟨block, more, hplace⟩ := Text.placeLines_lines (byteLength (pre ++ l ++ ['\n'])) rest
      rw [hplace] at hb
      cases hb
      refine ⟨byteLength (pre ++ l), by rw [← hnext, Text.byteLength_append], ?_, hstate⟩
      exact ⟨pre ++ l, rest, by rw [hs, List.append_assoc], Nat.le_refl _,
        Nat.lt_add_of_pos_right (Char.utf8Size_pos _)⟩

def StyleSheet.HighlightAgrees (sheet : StyleSheet) (ts : Tokens κ) (text : String) : Prop :=
  sheet.LinesAgree text.toList ts (Text.lineBlocks text.toList) (sheet.highlightLines ts text)

theorem StyleSheet.highlightLines_agree (sheet : StyleSheet) {text : String}
    (hts : ts.Fresh text.toList) (hclass : Lexicon.styleClass (Lexicon.comment : κ) = .comment) :
    sheet.HighlightAgrees ts text := by
  refine sheet.highlightBlocks_agree hts hclass text.toList [] .normal rfl ?_
  intro h
  cases h

end Lines

/-- In both languages the lines of a text that has just been parsed are styled as its tokens say:
each line has the parts of the tokens that lie on it, and the state after a line says whether a
comment covers the line's feed. -/
theorem highlight_agrees_with_tokens (sheet : StyleSheet) (edits : List Session.Edit)
    (text : String) :
    sheet.HighlightAgrees
        ((Session.after edits : Session Program.Category).parseText text).1.tokens text ∧
      sheet.HighlightAgrees
        ((Session.after edits : Session Condition.Category).parseText text).1.tokens text := by
  have hp := (Program.scan_pieces text.toList).fresh (by decide)
  have hc := (Condition.scan_pieces text.toList).fresh (by decide)
  rw [Session.tokens_parseText, Session.tokens_parseText]
  exact ⟨sheet.highlightLines_agree hp rfl, sheet.highlightLines_agree hc rfl⟩

end GraphScribe
