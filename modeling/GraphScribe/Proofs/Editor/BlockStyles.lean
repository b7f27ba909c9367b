import GraphScribe.Editor.Highlight
import GraphScribe.Proofs.Token.Partition
import Mathlib.Data.List.Basic

/-! # The styles of one block

A block is styled from the tokens that the look-up finds in it. The shortcut for a token that covers
the block, and the bytes that a carried comment has already covered, lead to the same ranges as
cutting every token to the block. -/
namespace GraphScribe

open Text (byteLength)

variable {κ : Type}

def Token.sharesByte (start stop : Nat) (t : Token κ) : Bool :=
  max t.start start < min t.stop stop

theorem Token.sharesByte_iff {start stop : Nat} {t : Token κ} :
    t.sharesByte start stop = true ↔ ∃ i, start ≤ i ∧ i < stop ∧ t.contains i = true := by
  simp only [Token.sharesByte, Token.contains_iff, decide_eq_true_eq]
  constructor
  · intro h
    exact ⟨max t.start start, by omega, by omega, by omega, by omega⟩
  · rintro ⟨i, hi, hi', hlo, hhi⟩
    omega

variable [Lexicon κ]

def StyleSheet.clipped (sheet : StyleSheet) (start stop : Nat) (t : Token κ) : StyledRange :=
  let c := Lexicon.styleClass t.category
  ⟨max t.start start - start, min t.stop stop - max t.start start, c, sheet.get c⟩

/-- What the tokens say is to be drawn on the block `start ..< stop`. -/
def StyleSheet.lineRanges (sheet : StyleSheet) (ts : Tokens κ) (start stop : Nat) :
    List StyledRange :=
  (ts.toList.filter (Token.sharesByte start stop)).map (sheet.clipped start stop)

section Block

variable [DecidableEq κ] {ts : Tokens κ} {start stop : Nat}

omit [Lexicon κ] [DecidableEq κ] in
/-- A token that covers a whole range is the only one to intersect it. -/
theorem Tokens.Ordered.covering_alone (h : ts.Ordered) {t : Token κ}
    (ht : t ∈ ts.toList.filter fun t => t.intersects start stop) (hstart : t.start ≤ start)
    (hstop : stop ≤ t.stop) : (ts.toList.filter fun t => t.intersects start stop) = [t] := by
  have horder := h.ordered.filter fun t => t.intersects start stop
  have hall : ∀ u ∈ ts.toList.filter (fun t => t.intersects start stop),
      u.start < stop ∧ start < u.stop := by
    intro u hu
    simpa [Token.intersects] using (List.mem_filter.mp hu).2
  generalize (ts.toList.filter fun t => t.intersects start stop) = found at ht horder hall ⊢
  obtain ⟨before, after, rfl⟩ := List.append_of_mem ht
  obtain ⟨_, hafter, hbefore⟩ := List.pairwise_append.mp horder
  have hb : before = [] := by
    refine List.eq_nil_iff_forall_not_mem.mpr ?_
    intro u hu
    have := hbefore u hu t List.mem_cons_self
    have := (hall u (by simp [hu])).2
    omega
  have ha : after = [] := by
    refine List.eq_nil_iff_forall_not_mem.mpr ?_
    intro u hu
    have := (List.pairwise_cons.mp hafter).1 u hu
    have := (hall u (by simp [hu])).1
    omega
  rw [hb, ha, List.nil_append]

omit [DecidableEq κ] in
theorem StyleSheet.clip_zero (sheet : StyleSheet) (t : Token κ) :
    sheet.clip start stop 0 t =
      if t.sharesByte start stop then [sheet.clipped start stop t] else [] := by
  have hiff : max (max t.start start - start) 0 < min t.stop stop - start ↔
      max t.start start < min t.stop stop := by omega
  simp only [StyleSheet.clip, StyleSheet.range, Token.sharesByte, decide_eq_true_eq, hiff]
  split
  · simp only [StyleSheet.clipped, List.cons.injEq, and_true, StyledRange.mk.injEq]
    omega
  · rfl

omit [DecidableEq κ] in
/-- Beyond the bytes already covered, a token that begins there is drawn as if none were. -/
theorem StyleSheet.clip_uncovered (sheet : StyleSheet) {covered : Nat} {t : Token κ}
    (h : start + covered ≤ t.start) : sheet.clip start stop covered t = sheet.clip start stop 0 t := by
  have hmax : max (max t.start start - start) covered = max (max t.start start - start) 0 := by omega
  rw [StyleSheet.clip, StyleSheet.clip, hmax]

omit [DecidableEq κ] in
theorem StyleSheet.clip_covered (sheet : StyleSheet) {covered : Nat} {t : Token κ}
    (h : t.stop ≤ start + covered) : sheet.clip start stop covered t = [] := by
  have hle : ¬max (max t.start start - start) covered < min t.stop stop - start := by omega
  rw [StyleSheet.clip, StyleSheet.range, if_neg hle]

omit [DecidableEq κ] in
theorem StyleSheet.flatMap_clip_zero (sheet : StyleSheet) (found : List (Token κ)) :
    (found.filter fun t => t.intersects start stop).flatMap (sheet.clip start stop 0) =
      (found.filter (Token.sharesByte start stop)).map (sheet.clipped start stop) := by
  induction found with
  | nil => rfl
  | cons t found ih =>
    by_cases hs : t.sharesByte start stop = true
    · have hi : t.intersects start stop = true := by
        simp only [Token.sharesByte, Token.intersects, Bool.and_eq_true, decide_eq_true_eq] at hs ⊢
        omega
      rw [List.filter_cons, if_pos hi, List.filter_cons, if_pos hs, List.flatMap_cons, ih,
        sheet.clip_zero, if_pos hs, List.map_cons, List.singleton_append]
    · rw [List.filter_cons_of_neg hs, ← ih, List.filter_cons]
      split
      · rw [List.flatMap_cons, sheet.clip_zero, if_neg hs, List.nil_append]
      · rfl

/-- The shortcut for a token that covers the whole block changes nothing. -/
theorem StyleSheet.highlightTokens_eq (sheet : StyleSheet) (hts : ts.Ordered) (covered : Nat) :
    sheet.highlightTokens ts start stop covered =
      ⟨(ts.toList.filter fun t => t.intersects start stop).flatMap (sheet.clip start stop covered),
        stateAfter ((ts.toList.filter fun t => t.intersects start stop).any (goesOn stop))⟩ := by
  unfold StyleSheet.highlightTokens
  rw [hts.overlapping_eq_filter]
  dsimp only
  split
  · rename_i t hfind
    have hcover := List.find?_some hfind
    simp only [Bool.and_eq_true, beq_iff_eq, decide_eq_true_eq] at hcover
    obtain ⟨⟨rfl, hstart⟩, hstop⟩ := hcover
    rw [hts.covering_alone (List.mem_of_find?_eq_some hfind) hstart hstop]
    have hrange : sheet.clip start stop 0 t =
        sheet.range 0 (stop - start) (Lexicon.styleClass t.category) := by
      have hlo : max (max t.start start - start) 0 = 0 := by omega
      have hhi : min t.stop stop - start = stop - start := by omega
      rw [StyleSheet.clip, hlo, hhi]
    simp [hrange]
  · rfl

omit [DecidableEq κ] in
/-- A comment carried into a block and closed there is drawn up to its end, and only what follows it
is drawn from the other tokens. -/
theorem StyleSheet.lineRanges_carried (sheet : StyleSheet) (hts : ts.Ordered) {t : Token κ}
    {covered : Nat} (ht : t ∈ ts.toList) (hstart : t.start < start) (hend : t.stop = start + covered)
    (hpos : 0 < covered) (hstop : t.stop ≤ stop) :
    sheet.lineRanges ts start stop = sheet.range 0 covered (Lexicon.styleClass t.category) ++
      (ts.toList.filter fun t => t.intersects start stop).flatMap
        (sheet.clip start stop covered) := by
  rw [StyleSheet.lineRanges, ← sheet.flatMap_clip_zero]
  have horder := hts.ordered
  obtain ⟨before, after, heq⟩ := List.append_of_mem ht
  rw [heq] at horder ⊢
  obtain ⟨_, hafter, hbefore⟩ := List.pairwise_append.mp horder
  have hnone : (before.filter fun t => t.intersects start stop) = [] := by
    refine List.filter_eq_nil_iff.mpr ?_
    intro u hu
    have := hbefore u hu t List.mem_cons_self
    simp only [Token.intersects, Bool.and_eq_true, decide_eq_true_eq]
    omega
  have hmeets : t.intersects start stop = true := by
    simp only [Token.intersects, Bool.and_eq_true, decide_eq_true_eq]
    omega
  have hlater : ∀ u ∈ after.filter (fun t => t.intersects start stop),
      sheet.clip start stop 0 u = sheet.clip start stop covered u := by
    intro u hu
    have hle := (List.pairwise_cons.mp hafter).1 u (List.mem_filter.mp hu).1
    exact (sheet.clip_uncovered (by omega)).symm
  have hrange : sheet.clip start stop 0 t =
      sheet.range 0 covered (Lexicon.styleClass t.category) := by
    have hlo : max (max t.start start - start) 0 = 0 := by omega
    have hhi : min t.stop stop - start = covered := by omega
    rw [StyleSheet.clip, hlo, hhi]
  rw [List.filter_append, hnone, List.nil_append, List.filter_cons, if_pos hmeets,
    List.flatMap_cons, List.flatMap_cons, hrange, sheet.clip_covered (by omega), List.nil_append,
    List.flatMap_congr hlater]

omit [DecidableEq κ] in
theorem StyleSheet.lineRanges_covered (sheet : StyleSheet) (hts : ts.Ordered) {t : Token κ}
    (ht : t ∈ ts.toList) (hstart : t.start < start) (hle : start ≤ stop) (hstop : stop ≤ t.stop) :
    sheet.lineRanges ts start stop =
      sheet.range 0 (stop - start) (Lexicon.styleClass t.category) := by
  rw [StyleSheet.lineRanges, ← sheet.flatMap_clip_zero]
  by_cases hempty : start = stop
  · subst hempty
    rw [StyleSheet.range, if_neg (by omega), List.flatMap_eq_nil_iff]
    intro u _
    rw [StyleSheet.clip, StyleSheet.range, if_neg (by omega)]
  · have hmem : t ∈ ts.toList.filter fun t => t.intersects start stop := by
      refine List.mem_filter.mpr ⟨ht, ?_⟩
      simp only [Token.intersects, Bool.and_eq_true, decide_eq_true_eq]
      omega
    have hlo : max (max t.start start - start) 0 = 0 := by omega
    have hhi : min t.stop stop - start = stop - start := by omega
    rw [hts.covering_alone hmem (by omega) hstop, List.flatMap_cons, List.flatMap_nil,
      List.append_nil, StyleSheet.clip, hlo, hhi]

end Block

end GraphScribe
