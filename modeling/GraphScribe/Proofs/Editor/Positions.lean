import GraphScribe.Proofs.Editor.LineStyles

/-! # Positions and drawn lines

A diagnostic names a place by counting line feeds and characters up to it; what is drawn goes line
by line. Both mean the same lines: the position of an offset belongs to the last line that begins at
or before it, positions grow with offsets, and on the line of a token in error something is drawn as
an error from just that place on. -/
namespace GraphScribe

open Text (byteLength)

namespace Text

def Boundary (s : List Char) (o : Nat) : Prop := ∃ before after, s = before ++ after ∧
  o = byteLength before

def Between (s : List Char) (start stop : Nat) (run : List Char) : Prop :=
  ∃ before after, s = before ++ (run ++ after) ∧ start = byteLength before ∧
    stop = byteLength (before ++ run)

/-- The line with this index is the last that begins at or before the offset. -/
structure OnLine (s : List Char) (o index : Nat) (line : Nat × List Char) : Prop where
  found : (lineBlocks s)[index]? = some line
  start_le : line.1 ≤ o
  last : ∀ j l, index < j → (lineBlocks s)[j]? = some l → o < l.1

def Position.Before (p q : Position) : Prop :=
  p.line < q.line ∨ p.line = q.line ∧ p.column < q.column

theorem takeBytes_byteLength (a x : List Char) : takeBytes (byteLength a) (a ++ x) = a := by
  induction a with
  | nil =>
    cases x with
    | nil => rfl
    | cons c x => simp [takeBytes, Nat.ne_of_gt c.utf8Size_pos]
  | cons c a ih => simp [takeBytes, ih]

def lastLine (before : List Char) : List Char :=
  (before.reverse.takeWhile (· != '\n')).reverse

theorem position_eq {s before after : List Char} (hs : s = before ++ after) :
    position s (byteLength before) = ⟨before.count '\n' + 1, (lastLine before).length + 1⟩ := by
  subst hs
  simp [position, lastLine, takeBytes_byteLength]

theorem feed_not_mem_lastLine (before : List Char) : '\n' ∉ lastLine before := by
  intro h
  have hall := List.all_eq_true.mp (List.all_takeWhile (p := (· != '\n')) (l := before.reverse))
  exact absurd (hall '\n' (List.mem_reverse.mp h)) (by decide)

theorem lastLine_append_of_no_feed {u : List Char} (hu : '\n' ∉ u) (before : List Char) :
    lastLine (before ++ u) = lastLine before ++ u := by
  have hall : ∀ c ∈ u.reverse, (c != '\n') = true := by
    intro c hc
    simpa using fun heq : c = '\n' => hu (heq ▸ List.mem_reverse.mp hc)
  simp [lastLine, List.takeWhile_append_of_pos hall]

theorem lastLine_of_no_feed {u : List Char} (hu : '\n' ∉ u) : lastLine u = u :=
  lastLine_append_of_no_feed hu []

theorem takeWhile_append_cons {p : Char → Bool} {d : Char} (hd : p d = false) (u v : List Char) :
    (u ++ d :: v).takeWhile p = u.takeWhile p := by
  induction u with
  | nil => simp [hd]
  | cons c u ih => simp [List.takeWhile_cons, ih]

theorem lastLine_append_feed (l u : List Char) : lastLine (l ++ '\n' :: u) = lastLine u := by
  have hrev : (l ++ '\n' :: u).reverse = u.reverse ++ '\n' :: l.reverse := by simp
  rw [lastLine, hrev, takeWhile_append_cons (by rfl), lastLine]

theorem position_before {s a u x : List Char} (hs : s = a ++ (u ++ x)) (hu : u ≠ []) :
    (position s (byteLength a)).Before (position s (byteLength (a ++ u))) := by
  rw [position_eq hs, position_eq ((List.append_assoc a u x).symm ▸ hs)]
  by_cases hfeed : '\n' ∈ u
  · left
    have := List.count_pos_iff.mpr hfeed
    simp only [List.count_append]
    omega
  · right
    have := List.length_pos_iff.mpr hu
    simp only [List.count_append, List.count_eq_zero.mpr hfeed, lastLine_append_of_no_feed hfeed,
      List.length_append, Nat.add_zero, true_and]
    omega

theorem Boundary.position_before {s : List Char} {o o' : Nat} (h : Boundary s o)
    (h' : Boundary s o') (hlt : o < o') : (position s o).Before (position s o') := by
  obtain ⟨a, x, hs, rfl⟩ := h
  obtain ⟨b, y, hs', rfl⟩ := h'
  obtain ⟨u, rfl, rfl⟩ := prefix_of_byteLength_le (hs.symm.trans hs') hlt.le
  refine Text.position_before hs ?_
  rintro rfl
  simp at hlt

theorem le_start_of_mem_placeLines {start : Nat} {ls : List (List Char)} {l : Nat × List Char}
    (h : l ∈ placeLines start ls) : start ≤ l.1 := by
  induction ls generalizing start with
  | nil => cases h
  | cons m ls ih =>
    rw [placeLines, List.mem_cons] at h
    rcases h with rfl | h
    · exact Nat.le_refl _
    · have := ih h
      omega

/-- The line that holds the end of `before`, among the lines of the text placed from `start` on. -/
structure HoldsEnd (start : Nat) (s before : List Char) : Prop where
  line : ∃ pre block cr tail, LineOf s pre block cr tail ∧ before = pre ++ lastLine before ∧
    (placeLines start (lines s))[before.count '\n']? = some (start + byteLength pre, block)
  last : ∀ j l, before.count '\n' < j → (placeLines start (lines s))[j]? = some l →
    start + byteLength before < l.1

theorem holdsEnd_first {l before after tail : List Char} {start : Nat} {s : List Char}
    {more : List (Nat × List Char)} (hl : '\n' ∉ l)
    (hsplit : l = before ++ after) (hs : s = l ++ tail)
    (htail : tail = [] ∨ ∃ more, tail = '\n' :: more)
    (hlines : placeLines start (lines s) = (start, dropReturn l) :: more)
    (hmore : ∀ m ∈ more, start + byteLength l < m.1) : HoldsEnd start s before := by
  have hbefore : '\n' ∉ before := fun h => hl (hsplit ▸ List.mem_append_left _ h)
  have hcount := List.count_eq_zero.mpr hbefore
  obtain ⟨cr, hcr, hreturn⟩ := dropReturn_append l
  constructor
  · refine ⟨[], dropReturn l, cr, tail, ⟨?_, hcr, htail⟩, ?_, ?_⟩
    · rw [hs, List.nil_append, ← List.append_assoc, ← hreturn]
    · rw [lastLine_of_no_feed hbefore, List.nil_append]
    · rw [hcount, hlines]
      rfl
  · intro j m hj hm
    rw [hlines, hcount] at *
    obtain ⟨k, rfl⟩ := Nat.exists_eq_succ_of_ne_zero (Nat.ne_of_gt hj)
    have := hmore m (List.mem_of_getElem? hm)
    have := congrArg byteLength hsplit
    rw [byteLength_append] at this
    omega

theorem byteLength_feed (l u : List Char) :
    byteLength (l ++ '\n' :: u) = byteLength l + 1 + byteLength u := by
  rw [byteLength_append, byteLength_cons, ← Nat.add_assoc]
  rfl

theorem HoldsEnd.after_feed {l rest u : List Char} {start : Nat} (hl : '\n' ∉ l)
    (h : HoldsEnd (start + byteLength l + 1) rest u) :
    HoldsEnd start (l ++ '\n' :: rest) (l ++ '\n' :: u) := by
  have hcount : (l ++ '\n' :: u).count '\n' = u.count '\n' + 1 := by
    simp [List.count_eq_zero.mpr hl]
  have hlines : placeLines start (lines (l ++ '\n' :: rest)) =
      (start, dropReturn l) :: placeLines (start + byteLength l + 1) (lines rest) := by
    rw [lines_append_feed hl, placeLines]
  obtain ⟨pre, block, cr, tail, hline, hend, hplace⟩ := h.line
  constructor
  · refine ⟨l ++ '\n' :: pre, block, cr, tail, ⟨?_, hline.cr, hline.tail⟩, ?_, ?_⟩
    · rw [hline.text, List.append_assoc, List.cons_append]
    · rw [lastLine_append_feed, List.append_assoc, List.cons_append, ← hend]
    · rw [hcount, hlines, List.getElem?_cons_succ, hplace, byteLength_feed]
      simp only [Nat.add_assoc]
  · intro j m hj hm
    rw [hcount] at hj
    obtain ⟨k, rfl⟩ := Nat.exists_eq_succ_of_ne_zero (Nat.ne_of_gt (Nat.zero_lt_of_lt hj))
    rw [hlines, List.getElem?_cons_succ] at hm
    have := h.last k m (by omega) hm
    rw [byteLength_feed]
    omega

theorem holdsEnd (s : List Char) : ∀ start before after, s = before ++ after →
    HoldsEnd start s before := by
  induction s using lines_induction with
  | last l hl =>
    intro start before after hs
    have hlines : placeLines start (lines l) = [(start, dropReturn l)] := by
      rw [lines_of_no_feed hl]
      rfl
    exact holdsEnd_first hl hs (List.append_nil l).symm (Or.inl rfl) hlines (by simp)
  | next l rest hl ih =>
    intro start before after hs
    have within : ∀ u, l = before ++ u → HoldsEnd start (l ++ '\n' :: rest) before := by
      intro u hu
      refine holdsEnd_first hl hu rfl (Or.inr ⟨rest, rfl⟩)
        (by rw [lines_append_feed hl, placeLines]) ?_
      intro m hm
      have := le_start_of_mem_placeLines hm
      omega
    rcases List.append_eq_append_iff.mp hs with ⟨u, rfl, hu⟩ | ⟨u, hu, -⟩
    · cases u with
      | nil => exact within [] (by simp)
      | cons c u =>
        obtain ⟨rfl, hrest⟩ := List.cons.inj hu
        exact (ih _ u after hrest).after_feed hl
    · exact within u hu

theorem onLine_of_holdsEnd {s before after : List Char} (hs : s = before ++ after) :
    ∃ pre block cr tail, LineOf s pre block cr tail ∧ before = pre ++ lastLine before ∧
      OnLine s (byteLength before) (before.count '\n') (byteLength pre, block) := by
  have h := holdsEnd s 0 before after hs
  obtain ⟨pre, block, cr, tail, hline, hend, hplace⟩ := h.line
  refine ⟨pre, block, cr, tail, hline, hend, ?_, ?_, ?_⟩
  · rw [lineBlocks, hplace, Nat.zero_add]
  · rw [hend, byteLength_append]
    exact Nat.le_add_right _ _
  · intro j l hj hl
    have := h.last j l hj hl
    omega

/-- A character of a line that is not blank stands in the block of the line. -/
theorem LineOf.in_block {s pre block cr tail u x : List Char} {c : Char}
    (h : LineOf s pre block cr tail) (hs : s = pre ++ (u ++ c :: x)) (hu : '\n' ∉ u)
    (hc : isBlank c = false) : byteLength (pre ++ u) < byteLength (pre ++ block) := by
  by_contra hle
  rw [not_lt] at hle
  have heq : (pre ++ block) ++ (cr ++ tail) = (pre ++ u) ++ c :: x := by
    rw [List.append_assoc, ← h.text, hs, List.append_assoc]
  obtain ⟨v, hv, hrest⟩ := prefix_of_byteLength_le heq hle
  have hfeed : '\n' ∉ v := by
    rw [List.append_assoc, List.append_cancel_left_eq] at hv
    exact fun hmem => hu (hv ▸ List.mem_append_right _ hmem)
  have htail : ∀ w, '\n' ∉ w → tail ≠ w ++ c :: x := by
    rintro w hw rfl
    rcases h.tail with htail | ⟨more, htail⟩
    · simp at htail
    · cases w with
      | nil =>
        obtain ⟨rfl, -⟩ := List.cons.inj htail
        exact absurd hc (by decide)
      | cons d w =>
        obtain ⟨rfl, -⟩ := List.cons.inj htail
        exact hw List.mem_cons_self
  rcases h.cr with rfl | rfl
  · exact htail v hfeed hrest
  · cases v with
    | nil =>
      obtain ⟨rfl, -⟩ := List.cons.inj hrest
      exact absurd hc (by decide)
    | cons d v =>
      have hv : '\n' ∉ v := fun hv => hfeed (List.mem_cons_of_mem _ hv)
      exact htail v hv (List.cons.inj hrest).2

end Text

open Lexis (Scan Reads Piece)

variable {κ φ : Type} [DecidableEq κ] [Lexicon κ]

def Token.BeginsSolid (s : List Char) (t : Token κ) : Prop :=
  ∃ before c after, s = before ++ c :: after ∧ t.start = byteLength before ∧
    Text.isBlank c = false

theorem Lexis.Reads.head_solid [Lexis.Describable φ] {as : Lexis.Recast κ} {s rest : List Char}
    {p : Piece κ φ} {start : Nat} {t : Token κ} (h : Reads as s p rest)
    (ht : p.token? start = some t) : ∃ c u, s = c :: u ∧ Text.isBlank c = false := by
  have hne : s ≠ [] := fun hs => by
    have := h.shorter
    simp [hs] at this
  obtain ⟨c, u, rfl⟩ := List.exists_cons_of_ne_nil hne
  have ungapped : Lexis.gap? (κ := κ) (φ := φ) (c :: u) = none → Text.isBlank c = false :=
    Lexis.not_blank_of_gap?_none
  refine ⟨c, u, rfl, ?_⟩
  cases h with
  | gap hgap =>
    obtain ⟨rfl, _, _⟩ | ⟨r, rfl, hr⟩ := Lexis.gap?_cases hgap
    · cases ht
    · obtain ⟨body, rfl, _⟩ := Lexis.readComment_cases hr
      obtain ⟨rfl, -⟩ := List.cons.inj (Lexis.readComment_append hr)
      decide
  | token hgap => exact ungapped hgap
  | marked hgap => exact ungapped hgap
  | stray hgap => exact ungapped hgap

theorem Lexis.Scan.beginsSolid [Lexis.Describable φ] {as : Lexis.Recast κ} {s : List Char}
    {ps : List (Piece κ φ)} (h : Scan as s ps []) :
    ∀ t ∈ Lexis.layOut 0 ps, t.BeginsSolid s := by
  intro t ht
  obtain ⟨before, p, after, rfl, hp⟩ := Lexis.mem_layOut.mp ht
  obtain ⟨hstart, -, -⟩ := Piece.token?_span hp
  have htext := h.append
  rw [Piece.text_append, List.append_assoc] at htext
  rw [List.append_nil] at htext
  obtain ⟨c, u, hu, hc⟩ := h.reads_of_mem.head_solid hp
  refine ⟨Piece.text before, c, u, ?_, by omega, hc⟩
  rw [← htext, ← hu]
  simp

variable {ts : Tokens κ} {text : String}

/-- On the line that a token begins on something is drawn for it, from where it begins. -/
theorem Tokens.Fresh.drawn (sheet : StyleSheet) (hts : ts.Fresh text.toList)
    (hclass : Lexicon.styleClass (Lexicon.comment : κ) = .comment) {t : Token κ}
    (ht : t ∈ ts.toList) (hsolid : t.BeginsSolid text.toList) :
    ∃ index line h, Text.OnLine text.toList t.start index line ∧
      (Text.position text.toList t.start).line = index + 1 ∧
      (sheet.highlightLines ts text)[index]? = some h ∧
      ∃ r ∈ h.ranges, r.styleClass = Lexicon.styleClass t.category ∧
        line.1 + r.start = t.start := by
  obtain ⟨before, c, after, hs, hstart, hc⟩ := hsolid
  obtain ⟨pre, block, cr, tail, hline, hend, honLine⟩ := Text.onLine_of_holdsEnd hs
  have hagree := sheet.highlightLines_agree hts hclass
  obtain ⟨h, hh⟩ : ∃ h, (sheet.highlightLines ts text)[before.count '\n']? = some h := by
    have hlt := (List.getElem?_eq_some_iff.mp honLine.found).1
    rw [← hagree.length] at hlt
    exact ⟨_, List.getElem?_eq_getElem hlt⟩
  have hranges := (hagree.line _ _ _ honLine.found hh).ranges
  have hsplit : text.toList = pre ++ (Text.lastLine before ++ c :: after) := by
    rw [← List.append_assoc, ← hend, hs]
  have hin := hline.in_block hsplit (Text.feed_not_mem_lastLine before) hc
  rw [← hend, Text.byteLength_append, ← hstart] at hin
  have hle : byteLength pre ≤ t.start := hstart ▸ honLine.start_le
  have hstop := hts.nonempty t ht
  refine ⟨_, _, h, hstart ▸ honLine, ?_, hh,
    sheet.clipped (byteLength pre) (byteLength pre + byteLength block) t, ?_, rfl, ?_⟩
  · rw [hstart, Text.position_eq hs]
  · rw [hranges]
    refine List.mem_map_of_mem (List.mem_filter.mpr ⟨ht, ?_⟩)
    simp only [Token.sharesByte, decide_eq_true_eq]
    omega
  · simp only [StyleSheet.clipped]
    omega

/-- What is drawn as an error on the line of an error token begins where the token does. -/
def Tokens.ErrorsDrawn (sheet : StyleSheet) (ts : Tokens κ) (text : String) : Prop :=
  ∀ t ∈ ts.toList, t.isError = true → ∃ index line h, Text.OnLine text.toList t.start index line ∧
    (Text.position text.toList t.start).line = index + 1 ∧
    (sheet.highlightLines ts text)[index]? = some h ∧
    ∃ r ∈ h.ranges, r.styleClass = .error ∧ line.1 + r.start = t.start

theorem Lexis.Scan.errorsDrawn [Lexis.Describable φ] {as : Lexis.Recast κ}
    {ps : List (Piece κ φ)} (h : Scan as text.toList ps []) (sheet : StyleSheet)
    (hdistinct : (Lexicon.error : κ) ≠ Lexicon.comment)
    (hcomment : Lexicon.styleClass (Lexicon.comment : κ) = .comment)
    (herror : Lexicon.styleClass (Lexicon.error : κ) = .error) :
    Tokens.ErrorsDrawn sheet (Lexis.layOut 0 ps).toArray text := by
  intro t ht hisError
  have hc : t.category = Lexicon.error := by simpa [Token.isError] using hisError
  have hdrawn := (h.fresh hdistinct).drawn sheet hcomment ht (h.beginsSolid t (by simpa using ht))
  rwa [hc, herror] at hdrawn

/-- The position of an offset is its place in the last line that begins no later, so that positions
tell offsets apart and grow with them. In both languages, what a diagnostic points at is drawn as an
error on the line of that number, from the place where the token begins. -/
theorem positions_point_into_lines (text : String) (sheet : StyleSheet) :
    (∀ o, Text.Boundary text.toList o → ∃ index line run, Text.OnLine text.toList o index line ∧
        Text.Between text.toList line.1 o run ∧
        Text.position text.toList o = ⟨index + 1, run.length + 1⟩) ∧
      (∀ o o', Text.Boundary text.toList o → Text.Boundary text.toList o' → o < o' →
        (Text.position text.toList o).Before (Text.position text.toList o')) ∧
      Tokens.ErrorsDrawn sheet (Program.tokens text) text ∧
      Tokens.ErrorsDrawn sheet (Condition.tokens text) text := by
  refine ⟨?_, fun o o' h h' hlt => h.position_before h' hlt, ?_, ?_⟩
  · rintro o ⟨before, after, hs, rfl⟩
    obtain ⟨pre, block, cr, tail, -, hend, honLine⟩ := Text.onLine_of_holdsEnd hs
    refine ⟨_, _, Text.lastLine before, honLine, ⟨pre, after, ?_, rfl, ?_⟩, Text.position_eq hs⟩
    · rw [hs, ← List.append_assoc, ← hend]
    · rw [← hend]
  · exact (Program.scan_pieces text.toList).errorsDrawn sheet (by decide) rfl rfl
  · exact (Condition.scan_pieces text.toList).errorsDrawn sheet (by decide) rfl rfl

def carriedText : String := "/* é\r\nü */ é"

/-- The stray letter at offset 13 is the sixth character of the second line, and is drawn from the
seventh byte of that line on. -/
theorem positions_point_into_lines_carried :
    Text.position carriedText.toList 13 = ⟨2, 6⟩ ∧
      ∃ h, (StyleSheet.highlightLines {} (Condition.tokens carriedText) carriedText)[1]? = some h ∧
        ∃ r ∈ h.ranges, r.styleClass = .error ∧ 7 + r.start = 13 := by
  obtain ⟨-, -, -, hdrawn⟩ := positions_point_into_lines carriedText {}
  have hposition : Text.position carriedText.toList 13 = ⟨2, 6⟩ := by decide +kernel
  have htoken : ∃ t ∈ (Condition.tokens carriedText).toList, t.isError = true ∧ t.start = 13 := by
    decide +kernel
  have hline : (Text.lineBlocks carriedText.toList)[1]? = some (7, "ü */ é".toList) := by
    decide +kernel
  obtain ⟨t, ht, herror, hstart⟩ := htoken
  obtain ⟨index, line, h, honLine, hindex, hh, r, hr, hclass, hfrom⟩ := hdrawn t ht herror
  rw [hstart, hposition] at hindex
  obtain rfl : index = 1 := (Nat.succ.inj hindex).symm
  have hseven : line.1 = 7 :=
    congrArg Prod.fst (Option.some.inj (honLine.found.symm.trans hline))
  rw [hseven, hstart] at hfrom
  exact ⟨hposition, h, hh, r, hr, hclass, hfrom⟩

end GraphScribe
