import GraphScribe.Program.Category
import GraphScribe.Proofs.Editor.BlockStyles
import GraphScribe.Proofs.Lexis.Tail

/-! # Blocks styled from stale tokens

The tokens at hand may be those of an older text, so they need not fit the block, nor the comment
that is carried into it. As long as they are in order and none is empty, what is drawn on a block is
in order too, without overlap and inside the block, and a carried comment has its part of the block
to itself. The loop that draws the tokens one by one never takes an offset from a smaller one. -/
namespace GraphScribe

open Text (byteLength)
open Lexis (closing?)

variable {κ : Type}

def Text.minus? (a b : Nat) : Option Nat := if b ≤ a then some (a - b) else none

theorem Text.minus?_eq {a b : Nat} (h : b ≤ a) : minus? a b = some (a - b) := if_pos h

namespace StyleSheet

variable [Lexicon κ]

/-- The part of a token in the block `start ..< stop` beyond its first `covered` bytes, if no
subtraction fails. -/
def clip? (sheet : StyleSheet) (start stop covered : Nat) (t : Token κ) :
    Option (List StyledRange) := do
  let first ← Text.minus? (max t.start start) start
  let last ← Text.minus? (min t.stop stop) start
  let first := max first covered
  if first < last then
    let length ← Text.minus? last first
    let c := Lexicon.styleClass t.category
    return [⟨first, length, c, sheet.get c⟩]
  else
    return []

theorem clip?_eq (sheet : StyleSheet) {start stop : Nat} (covered : Nat) {t : Token κ}
    (hblock : start ≤ stop) (ht : start ≤ t.stop) :
    sheet.clip? start stop covered t = some (sheet.clip start stop covered t) := by
  have hfirst : start ≤ max t.start start := by omega
  have hlast : start ≤ min t.stop stop := by omega
  rw [clip?, clip, range, Text.minus?_eq hfirst, Text.minus?_eq hlast]
  dsimp only [Option.bind_eq_bind, Option.bind_some]
  by_cases hlt : max (max t.start start - start) covered < min t.stop stop - start
  · rw [if_pos hlt, if_pos hlt, Text.minus?_eq hlt.le]
    rfl
  · rw [if_neg hlt, if_neg hlt]
    rfl

variable [DecidableEq κ]

/-- Draws the tokens one after the other, after what has been drawn before; one that covers the
whole block is drawn in place of all that and ends the loop. -/
def drawEach? (sheet : StyleSheet) (start length covered : Nat) :
    BlockHighlight → List (Token κ) → Option BlockHighlight
  | h, [] => some h
  | h, t :: ts =>
    let stop := start + length
    let state := if goesOn stop t then .inComment else h.state
    if covered == 0 && t.start ≤ start && stop ≤ t.stop then
      some ⟨sheet.range 0 length (Lexicon.styleClass t.category), state⟩
    else do
      let own ← sheet.clip? start stop covered t
      sheet.drawEach? start length covered ⟨h.ranges ++ own, state⟩ ts

def highlightBlock? (sheet : StyleSheet) (ts : Tokens κ) (block : List Char) (start : Nat)
    (previous : BlockState) : Option BlockHighlight :=
  let length := byteLength block
  let found := (ts.overlapping start (start + length)).toList
  match previous with
  | .normal => sheet.drawEach? start length 0 ⟨[], .normal⟩ found
  | .inComment =>
    match closing? block with
    | none => some ⟨sheet.range 0 length .comment, .inComment⟩
    | some (carried, _) =>
      let covered := byteLength carried
      sheet.drawEach? start length covered ⟨sheet.range 0 covered .comment, .normal⟩ found

theorem drawEach?_eq (sheet : StyleSheet) {start length covered : Nat} {found : List (Token κ)}
    (hfound : ∀ t ∈ found, start ≤ t.stop)
    (hcover : ∀ t ∈ found,
      ¬(covered == 0 && t.start ≤ start && start + length ≤ t.stop) = true)
    (h : BlockHighlight) :
    sheet.drawEach? start length covered h found =
      some ⟨h.ranges ++ found.flatMap (sheet.clip start (start + length) covered),
        if found.any (goesOn (start + length)) then .inComment else h.state⟩ := by
  induction found generalizing h with
  | nil => simp [drawEach?]
  | cons t found ih =>
    obtain ⟨ht, hfound⟩ := List.forall_mem_cons.mp hfound
    obtain ⟨hopen, hcover⟩ := List.forall_mem_cons.mp hcover
    rw [drawEach?, if_neg hopen, sheet.clip?_eq covered (Nat.le_add_right _ _) ht]
    dsimp only [Option.bind_eq_bind, Option.bind_some]
    rw [ih hfound hcover, List.flatMap_cons, List.append_assoc, List.any_cons]
    cases goesOn (start + length) t <;> simp

theorem drawEach?_found (sheet : StyleSheet) {ts : Tokens κ} (hts : ts.Ordered)
    (start length : Nat) {covered : Nat} {before : List StyledRange}
    (hbefore : covered = 0 → before = []) :
    let found := ts.toList.filter fun t => t.intersects start (start + length)
    sheet.drawEach? start length covered ⟨before, .normal⟩ found =
      some ⟨before ++ found.flatMap (sheet.clip start (start + length) covered),
        stateAfter (found.any (goesOn (start + length)))⟩ := by
  intro found
  by_cases hcover : ∃ t ∈ found,
      (covered == 0 && t.start ≤ start && start + length ≤ t.stop) = true
  · obtain ⟨t, ht, hcover⟩ := hcover
    have hspan := hcover
    simp only [Bool.and_eq_true, beq_iff_eq, decide_eq_true_eq] at hspan
    obtain ⟨⟨rfl, hstart⟩, hstop⟩ := hspan
    have halone : found = [t] := hts.covering_alone ht hstart hstop
    have hclip : sheet.clip start (start + length) 0 t =
        sheet.range 0 length (Lexicon.styleClass t.category) := by
      have hlo : max (max t.start start - start) 0 = 0 := by omega
      have hhi : min t.stop (start + length) - start = length := by omega
      rw [clip, hlo, hhi]
    rw [halone, drawEach?, if_pos hcover, hbefore rfl]
    simp [hclip, stateAfter]
  · apply sheet.drawEach?_eq
    · intro t ht
      have hmeets := (List.mem_filter.mp ht).2
      simp only [Token.intersects, Bool.and_eq_true, decide_eq_true_eq] at hmeets
      omega
    · intro t ht hcovers
      exact hcover ⟨t, ht, hcovers⟩

/-- No subtraction fails, and the loop styles the block as is done in one go. -/
theorem highlightBlock?_eq (sheet : StyleSheet) {ts : Tokens κ} (hts : ts.Ordered)
    (block : List Char) (start : Nat) (previous : BlockState) :
    sheet.highlightBlock? ts block start previous =
      some (sheet.highlightBlock ts block start previous) := by
  cases previous with
  | normal =>
    rw [highlightBlock?, highlightBlock, hts.overlapping_eq_filter,
      sheet.drawEach?_found hts start _ fun _ => rfl, sheet.highlightTokens_eq hts]
    rfl
  | inComment =>
    rw [highlightBlock?, highlightBlock, hts.overlapping_eq_filter]
    cases hc : closing? block with
    | none => rfl
    | some c =>
      have hpos := Text.byteLength_pos (Lexis.closing?_ne_nil hc)
      dsimp only
      rw [sheet.drawEach?_found hts start _ fun hzero => by omega, sheet.highlightTokens_eq hts]

omit [Lexicon κ] [DecidableEq κ] in
theorem mem_range (sheet : StyleSheet) {start stop : Nat} {c : StyleClass} {r : StyledRange} :
    r ∈ sheet.range start stop c ↔ start < stop ∧ r = ⟨start, stop - start, c, sheet.get c⟩ := by
  by_cases hlt : start < stop
  · simp [range, hlt]
  · simp [range, hlt]

omit [Lexicon κ] [DecidableEq κ] in
theorem pairwise_range (sheet : StyleSheet) {start stop : Nat} {c : StyleClass}
    {R : StyledRange → StyledRange → Prop} : (sheet.range start stop c).Pairwise R := by
  by_cases hlt : start < stop
  · rw [range, if_pos hlt]
    exact List.pairwise_singleton _ _
  · rw [range, if_neg hlt]
    exact .nil

/-- The part of a token that is drawn lies in the token, in the block, and after the bytes that are
covered. -/
structure DrawnFrom (start stop covered : Nat) (t : Token κ) (r : StyledRange) : Prop where
  nonempty : 0 < r.length
  covered : covered ≤ r.start
  token_start : t.start ≤ start + r.start
  token_stop : start + r.stop ≤ t.stop
  block_stop : start + r.stop ≤ stop

omit [DecidableEq κ] in
theorem drawnFrom_of_mem_clip (sheet : StyleSheet) {start stop covered : Nat} {t : Token κ}
    {r : StyledRange} (h : r ∈ sheet.clip start stop covered t) :
    DrawnFrom start stop covered t r := by
  obtain ⟨hlt, rfl⟩ := sheet.mem_range.mp h
  constructor <;> simp only [StyledRange.stop] <;> omega

omit [DecidableEq κ] in
theorem exists_drawnFrom (sheet : StyleSheet) {start stop covered : Nat} {found : List (Token κ)}
    {r : StyledRange} (h : r ∈ found.flatMap (sheet.clip start stop covered)) :
    ∃ t ∈ found, DrawnFrom start stop covered t r := by
  obtain ⟨t, ht, hr⟩ := List.mem_flatMap.mp h
  exact ⟨t, ht, sheet.drawnFrom_of_mem_clip hr⟩

omit [DecidableEq κ] in
theorem flatMap_clip_ordered (sheet : StyleSheet) {start stop covered : Nat}
    {found : List (Token κ)} (h : found.Pairwise fun a b => a.stop ≤ b.start) :
    (found.flatMap (sheet.clip start stop covered)).Pairwise fun a b => a.stop ≤ b.start := by
  rw [List.pairwise_flatMap]
  constructor
  · intro t _
    exact sheet.pairwise_range
  · apply h.imp
    intro t u htu a ha b hb
    have ha := (sheet.drawnFrom_of_mem_clip ha).token_stop
    have hb := (sheet.drawnFrom_of_mem_clip hb).token_start
    omega

/-- Ranges in order, none of them empty, inside a block of the given length. -/
structure Fits (length : Nat) (ranges : List StyledRange) : Prop where
  nonempty : ∀ r ∈ ranges, 0 < r.length
  ordered : ranges.Pairwise fun a b => a.stop ≤ b.start
  inside : ∀ r ∈ ranges, r.stop ≤ length

omit [DecidableEq κ] in
theorem fits_flatMap_clip (sheet : StyleSheet) {ts : Tokens κ} (hts : ts.Ordered)
    (start length covered : Nat) :
    Fits length ((ts.toList.filter fun t => t.intersects start (start + length)).flatMap
      (sheet.clip start (start + length) covered)) := by
  constructor
  · intro r hr
    obtain ⟨t, _, hdrawn⟩ := sheet.exists_drawnFrom hr
    exact hdrawn.nonempty
  · exact sheet.flatMap_clip_ordered (hts.ordered.filter _)
  · intro r hr
    obtain ⟨t, _, hdrawn⟩ := sheet.exists_drawnFrom hr
    have := hdrawn.block_stop
    omega

omit [Lexicon κ] [DecidableEq κ] in
theorem Fits.after_front (sheet : StyleSheet) {length covered : Nat} {c : StyleClass}
    {own : List StyledRange} (h : Fits length own) (hcovered : covered ≤ length)
    (hown : ∀ r ∈ own, covered ≤ r.start) : Fits length (sheet.range 0 covered c ++ own) := by
  constructor
  · intro r hr
    rcases List.mem_append.mp hr with hr | hr
    · obtain ⟨hpos, rfl⟩ := sheet.mem_range.mp hr
      exact hpos
    · exact h.nonempty r hr
  · rw [List.pairwise_append]
    refine ⟨sheet.pairwise_range, h.ordered, ?_⟩
    intro a ha b hb
    obtain ⟨_, rfl⟩ := sheet.mem_range.mp ha
    have := hown b hb
    simp only [StyledRange.stop]
    omega
  · intro r hr
    rcases List.mem_append.mp hr with hr | hr
    · obtain ⟨_, rfl⟩ := sheet.mem_range.mp hr
      simp only [StyledRange.stop]
      omega
    · exact h.inside r hr

theorem fits_highlightBlock (sheet : StyleSheet) {ts : Tokens κ} (hts : ts.Ordered)
    (block : List Char) (start : Nat) (previous : BlockState) :
    Fits (byteLength block) (sheet.highlightBlock ts block start previous).ranges := by
  cases previous with
  | normal =>
    rw [highlightBlock, sheet.highlightTokens_eq hts]
    exact sheet.fits_flatMap_clip hts start _ 0
  | inComment =>
    rw [highlightBlock]
    cases hc : closing? block with
    | none =>
      have hempty : Fits (byteLength block) [] := ⟨by simp, .nil, by simp⟩
      have hfront := hempty.after_front sheet (c := .comment) le_rfl (by simp)
      rwa [List.append_nil] at hfront
    | some c =>
      have hlength := congrArg byteLength (Lexis.closing?_append hc)
      rw [Text.byteLength_append] at hlength
      dsimp only
      rw [sheet.highlightTokens_eq hts]
      apply (sheet.fits_flatMap_clip hts start _ _).after_front sheet (by omega)
      intro r hr
      obtain ⟨t, _, hdrawn⟩ := sheet.exists_drawnFrom hr
      exact hdrawn.covered

/-- What is drawn on a block into which a comment is carried: the comment up to its closing mark, or
to the end of the block, and the tokens only after that. -/
structure CarriesOver (sheet : StyleSheet) (block : List Char) (h : BlockHighlight) : Prop where
  unclosed : ¬['*', '/'] <:+: block → h.state = .inComment ∧
    h.ranges = if block = [] then [] else [⟨0, byteLength block, .comment, sheet.get .comment⟩]
  closed : ∀ body rest, block = body ++ '*' :: '/' :: rest → ¬['*', '/'] <:+: body →
    ∃ own, h.ranges = ⟨0, byteLength (body ++ ['*', '/']), .comment, sheet.get .comment⟩ :: own ∧
      ∀ r ∈ own, byteLength (body ++ ['*', '/']) ≤ r.start

theorem carriesOver_highlightBlock (sheet : StyleSheet) {ts : Tokens κ} (hts : ts.Ordered)
    (block : List Char) (start : Nat) :
    sheet.CarriesOver block (sheet.highlightBlock ts block start .inComment) := by
  constructor
  · intro hopen
    rw [highlightBlock, Lexis.closing?_eq_none hopen]
    refine ⟨rfl, ?_⟩
    by_cases hempty : block = []
    · subst hempty
      rfl
    · rw [if_neg hempty]
      exact if_pos (Text.byteLength_pos hempty)
  · rintro body rest rfl hbody
    have hmark : closing? (body ++ '*' :: '/' :: rest) = some (body ++ ['*', '/'], rest) := by
      have hfirst := Lexis.closing?_of_not_infix hbody
      have htail := Lexis.closing?_tail (t := []) (by rwa [List.append_nil]) rest
      rwa [List.append_assoc] at htail
    have hpos := Text.byteLength_pos (Lexis.closing?_ne_nil hmark)
    let stop := start + byteLength (body ++ '*' :: '/' :: rest)
    let found := ts.toList.filter fun t => t.intersects start stop
    refine ⟨found.flatMap (sheet.clip start stop (byteLength (body ++ ['*', '/']))), ?_, ?_⟩
    · rw [highlightBlock, hmark]
      dsimp only
      rw [sheet.highlightTokens_eq hts, range, if_pos hpos]
      rfl
    · intro r hr
      obtain ⟨t, _, hdrawn⟩ := sheet.exists_drawnFrom hr
      exact hdrawn.covered

structure DrawsBlock (sheet : StyleSheet) (ts : Tokens κ) (block : List Char) (start : Nat)
    (previous : BlockState) (h : BlockHighlight) : Prop where
  checked : sheet.highlightBlock? ts block start previous = some h
  nonempty : ∀ r ∈ h.ranges, 0 < r.length
  ordered : h.ranges.Pairwise fun a b => a.start < b.start
  disjoint : h.ranges.Pairwise fun a b => a.stop ≤ b.start
  inside : ∀ r ∈ h.ranges, r.stop ≤ byteLength block
  carried : previous = .inComment → sheet.CarriesOver block h

end StyleSheet

/-- On any tokens in order, none of them empty, a block is styled without a subtraction that fails,
its ranges are not empty, in strict order, disjoint and inside the block, and a carried comment goes
before all else. -/
theorem stale_block_drawn [DecidableEq κ] [Lexicon κ] (sheet : StyleSheet) {ts : Tokens κ}
    (hts : ts.Ordered) (block : List Char) (start : Nat) (previous : BlockState) :
    sheet.DrawsBlock ts block start previous (sheet.highlightBlock ts block start previous) := by
  have hfits := sheet.fits_highlightBlock hts block start previous
  constructor
  · exact sheet.highlightBlock?_eq hts block start previous
  · exact hfits.nonempty
  · apply hfits.ordered.imp_of_mem
    intro a b ha _ hab
    have := hfits.nonempty a ha
    simp only [StyledRange.stop] at hab
    omega
  · exact hfits.ordered
  · exact hfits.inside
  · rintro rfl
    exact sheet.carriesOver_highlightBlock hts block start

def lagging : Tokens Program.Category :=
  #[⟨0, 4, .declaration, "main", none⟩, ⟨5, 6, .declarationOperator, "=", none⟩,
    ⟨7, 11, .keyword, "skip", none⟩, ⟨11, 12, .declarationSeparator, ".", none⟩]

/-- The comment that is carried in hides one token, and the end of the block cuts another. -/
theorem stale_block_drawn_lagging :
    let h := ({} : StyleSheet).highlightBlock lagging "up */= ski".toList 0 .inComment
    lagging.Ordered ∧
      ({} : StyleSheet).DrawsBlock lagging "up */= ski".toList 0 .inComment h ∧
      h.ranges.map (fun r => (r.start, r.length, r.styleClass)) =
        [(0, 5, .comment), (5, 1, .keyword), (7, 3, .keyword)] ∧
      h.state = .normal := by
  have hordered : lagging.Ordered := ⟨by decide, by decide⟩
  refine ⟨hordered, stale_block_drawn {} hordered _ 0 .inComment, ?_, ?_⟩ <;> decide +kernel

end GraphScribe
