import GraphScribe.Proofs.Lexis.Tail
import GraphScribe.Proofs.Program.Soundness

/-! # Readings before another tail

Where a reading ends is settled by the text it takes and by the first character after it. A layout can
therefore be moved before another text, and a program is read as its first gap and what comes after
that gap. -/
namespace GraphScribe.Program

open Lexis (Reads Scan gap? readName)

/-- What is taken past a gap is a whole name or, where none begins, one character. -/
theorem run_of_reads {s t : List Char} {p : Piece} (h : Reads recast s p t)
    (hs : gap? (κ := Category) (φ := Fault) s = none) :
    readName s = some (p.run, t) ∨ (readName s = none ∧ ∃ a, p.run = [a] ∧ s = a :: t) := by
  have taken : ∀ {k : Category} {r : List Char}, read? k s = some (r, t) →
      readName s = some (r, t) ∨ (readName s = none ∧ ∃ a, r = [a] ∧ s = a :: t) := by
    intro k r hr
    rcases read?_cases hr with ⟨_, hname⟩ | ⟨a, ha, rfl, rfl⟩
    · exact Or.inl hname
    · exact Or.inr ⟨readName_of_mark ha t, a, rfl, rfl⟩
  cases h with
  | gap hg =>
    rw [hs] at hg
    cases hg
  | token _ hr _ _ _ => exact taken hr
  | marked _ hr => exact taken hr
  | stray _ hr =>
    cases s with
    | nil => cases hr
    | cons a s =>
      cases hname : readName (a :: s) with
      | none =>
        simp only [Lexis.readStray, hname, Option.getD_none] at hr
        cases hr
        exact Or.inr ⟨rfl, a, rfl, rfl⟩
      | some cut =>
        simp only [Lexis.readStray, hname, Option.getD_some] at hr
        cases hr
        exact Or.inl rfl

theorem reads_unique {s t u : List Char} {p q : Piece} (h : Reads recast s p t)
    (k : Reads recast s q u) : p.run = q.run ∧ t = u := by
  have hrest : p.run = q.run → t = u := by
    intro hrun
    have happ := h.append.trans k.append.symm
    rw [hrun] at happ
    exact List.append_cancel_left happ
  suffices hrun : p.run = q.run from ⟨hrun, hrest hrun⟩
  cases hs : gap? (κ := Category) (φ := Fault) s with
  | some g =>
    have only : ∀ {p : Piece} {t : List Char}, Reads recast s p t → g = (p, t) := by
      intro p t h
      cases h with
      | gap hg =>
        rw [hs] at hg
        exact Option.some.inj hg
      | token hn _ _ _ _ => rw [hs] at hn; cases hn
      | marked hn _ => rw [hs] at hn; cases hn
      | stray hn _ => rw [hs] at hn; cases hn
    cases (only h).symm.trans (only k)
    rfl
  | none =>
    rcases run_of_reads h hs with hp | ⟨hp, a, ha, hs'⟩
    · rcases run_of_reads k hs with hq | ⟨hq, _⟩
      · rw [hp] at hq
        exact congrArg Prod.fst (Option.some.inj hq)
      · rw [hp] at hq
        cases hq
    · rcases run_of_reads k hs with hq | ⟨_, b, hb, hs''⟩
      · rw [hp] at hq
        cases hq
      · rw [ha, hb, List.head_eq_of_cons_eq (hs'.symm.trans hs'')]

section Words

variable {r t t' : List Char} (ht : t'.head? = t.head? ∨ Text.wordEnds t' = true)

include ht

theorem wordEnds_tail (h : Text.wordEnds t = true) : Text.wordEnds t' = true := by
  rcases ht with ht | ht
  · cases t <;> cases t' <;> simp_all [Text.wordEnds]
  · exact ht

theorem readName_tail (h : readName (r ++ t) = some (r, t)) :
    readName (r ++ t') = some (r, t') := by
  obtain ⟨hshape, hend, _⟩ := Lexis.readName_eq_some_iff.mp h
  refine Lexis.readName_eq_some_iff.mpr ⟨hshape, ?_, rfl⟩
  rcases ht with ht | ht
  · intro d hd
    exact hend d (by rwa [← ht])
  · exact Lexis.nameEnds_of_wordEnds ht

end Words

/-- A token of the grammar is read before every tail at which a word cannot go on in another way. -/
theorem reads_tail {c : Category} {r t t' : List Char}
    (h : Reads recast (r ++ t) (.token c r : Piece) t) (hc : c ≠ .comment)
    (hclean : IsClean (.token c r))
    (ht : (∃ a, c.mark? = some a) ∨ t'.head? = t.head? ∨ Text.wordEnds t' = true) :
    Reads recast (r ++ t') (.token c r : Piece) t' := by
  obtain ⟨k, hr, has⟩ := recast_of_reads hc h
  have hka := eq_readAs_of_recast has
  -- a word ends by what comes after it, a mark by itself
  rcases read?_cases hr with ⟨hk, hname⟩ | ⟨a, ha, rfl, hs⟩
  · have htail := ht.resolve_left (by
      rintro ⟨a, ha⟩
      cases c <;> cases ha <;> rcases hk with rfl | rfl <;> cases hka)
    have hname' := readName_tail htail hname
    rcases hk with rfl | rfl
    · obtain ⟨_, hres, hword⟩ := read?_keyword.mp hr
      obtain rfl : c = .keyword := by
        cases c <;> first | rfl | cases hka
      exact reads_token (read?_keyword.mpr ⟨hname', hres, wordEnds_tail htail hword⟩) (by decide)
    · rw [← read?_identifier] at hname'
      cases c with
      | identifier =>
        refine reads_name hname' fun hres => ?_
        rw [hclean rfl] at hres
        cases hres
      | declaration => exact reads_declared hname' has.2
      | _ => cases has
  · obtain rfl : c = k := by
      subst hka
      cases c <;> first | rfl | cases ha
    refine reads_token ((read?_mark ha).mpr ⟨rfl, rfl⟩) ?_
    rintro rfl
    cases ha

theorem Laid.append {s t : List Char} {xs : List Spaced} (h : Laid s xs t) :
    Lexis.Piece.text (flatten xs) ++ t = s := by
  induction h with
  | nil => rfl
  | @cons s x t xs u hg hr _ ih =>
    rw [flatten_cons, Lexis.Piece.text_append, Lexis.Piece.text_cons, List.append_assoc,
      List.append_assoc, ih, hr.append, ← hg]
    exact (scans_gaps s).append

theorem token_of_clean {s t : List Char} {p : Piece} (h : Reads recast s p t)
    (hs : gap? (κ := Category) (φ := Fault) s = none) (hp : IsClean p) :
    ∃ c, p = .token c p.run ∧ c ≠ .comment := by
  cases h with
  | gap hg =>
    rw [hs] at hg
    cases hg
  | token _ _ _ hne _ => exact ⟨_, rfl, hne⟩
  | marked => exact hp.elim
  | stray => exact hp.elim

/-- What a letter of a layout needs of the text that comes after it in place of `t`. -/
def TailFits (x : Spaced) (t t' : List Char) : Prop :=
  (∃ c a, c.mark? = some a ∧ x.2 = .token c [a]) ∨ t'.head? = t.head? ∨ Text.wordEnds t' = true

theorem Laid.cons_tail {s t t' u : List Char} {x : Spaced} {xs : List Spaced}
    (hg : (gaps s).pieces = x.1) (hr : Reads recast (gaps s).rest x.2 t) (hx : IsClean x.2)
    (ht : TailFits x t t') (h : Laid t' xs u) :
    Laid (Lexis.Piece.text x.1 ++ (x.2.run ++ t')) (x :: xs) u := by
  obtain ⟨c, hpiece, hc⟩ := token_of_clean hr (gap?_rest_gaps s) hx
  have hread : Reads recast (x.2.run ++ t') x.2 t' := by
    have hr' := hr
    rw [← hr.append] at hr'
    rw [hpiece] at hr' hx ⊢
    refine reads_tail hr' hc hx (ht.imp_left ?_)
    rintro ⟨d, a, ha, heq⟩
    rw [hpiece] at heq
    injection heq with hcat _
    exact ⟨a, by rw [hcat, ha]⟩
  have hgaps : gaps (Lexis.Piece.text x.1 ++ (x.2.run ++ t')) = ⟨x.1, x.2.run ++ t', 0⟩ := by
    have hold : Lexis.gaps s = (x.1, (gaps s).rest) := by rw [← hg]; rfl
    have hfirst : (x.2.run ++ t').head? = (gaps s).rest.head? := by
      obtain ⟨a, u, ha⟩ := List.exists_cons_of_ne_nil hr.run_ne_nil
      rw [← hr.append, ha]
      rfl
    have hnone : gap? (κ := Category) (φ := Fault) (x.2.run ++ t') = none := by
      rw [hpiece] at hread
      exact gap?_of_read? (read?_of_reads hc hread)
    unfold gaps
    rw [Lexis.gaps_tail hold hfirst hnone]
  refine .cons ?_ ?_ h
  · rw [hgaps]
  · rw [hgaps]
    exact hread

/-- A layout without faults can be moved before another tail where no word goes on into it. -/
theorem Laid.tail {s m m' : List Char} {xs : List Spaced} (h : Laid s xs m)
    (hclean : Clean (flatten xs)) (hm : m'.head? = m.head? ∨ Text.wordEnds m' = true) :
    Laid (Lexis.Piece.text (flatten xs) ++ m') xs m' := by
  induction h with
  | nil => exact .nil m'
  | @cons s x t xs m hg hr hl ih =>
    rw [flatten_cons] at hclean
    obtain ⟨_, hclean⟩ := clean_append.mp hclean
    obtain ⟨hx, hxs⟩ := clean_cons.mp hclean
    have hfits : TailFits x t (Lexis.Piece.text (flatten xs) ++ m') := by
      right
      cases htext : Lexis.Piece.text (flatten xs) with
      | nil =>
        have ht := hl.append
        rw [htext, List.nil_append] at ht
        rw [List.nil_append, ← ht]
        exact hm
      | cons a u =>
        left
        rw [← hl.append, htext]
        rfl
    rw [flatten_cons, Lexis.Piece.text_append, Lexis.Piece.text_cons, List.append_assoc,
      List.append_assoc]
    exact Laid.cons_tail hg hr hx hfits (ih hxs hm)

theorem Laid.tail_of_mark {s m : List Char} {xs : List Spaced} {x : Spaced} {c : Category}
    (h : Laid s (xs ++ [x]) m) (hx : spaced.mark c x) (hclean : Clean (flatten (xs ++ [x])))
    (m' : List Char) : Laid (Lexis.Piece.text (flatten (xs ++ [x])) ++ m') (xs ++ [x]) m' := by
  obtain ⟨u, hxs, hlast⟩ := h.split
  have htext := hlast.append
  rw [flatten_append, clean_append] at hclean
  cases hlast with
  | cons hg hr hnil =>
    cases hnil
    obtain ⟨a, ha, hpiece, _⟩ := hx
    have hpart : IsClean x.2 := hclean.2 x.2 (by simp)
    have hone : Laid (Lexis.Piece.text x.1 ++ (x.2.run ++ m')) [x] m' :=
      Laid.cons_tail hg hr hpart (Or.inl ⟨c, a, ha, hpiece⟩) (.nil m')
    have hhead : (Lexis.Piece.text x.1 ++ (x.2.run ++ m')).head? = u.head? := by
      rw [← htext, hpiece]
      cases hgap : Lexis.Piece.text x.1 <;> simp [hgap, hpiece]
    have hjoined := (hxs.tail hclean.1 (Or.inl hhead)).trans hone
    simpa using hjoined

@[simp] theorem gaps_rest_gaps (s : List Char) : gaps (gaps s).rest = ⟨[], (gaps s).rest, 0⟩ := by
  have h := gap?_rest_gaps s
  generalize (gaps s).rest = u at h ⊢
  unfold gaps
  rw [Lexis.gaps_of_none h]

theorem declarationStep_past_gap (block : BlockReader) (scope : Scope) (s : List Char) :
    declarationStep block scope s =
      (declarationStep block scope (gaps s).rest).map (·.after (gaps s).pieces) := by
  unfold declarationStep
  simp only [gaps_rest_gaps]
  split
  · rfl
  · cases read? .closeParen (gaps s).rest with
    | some cut => cases scope <;> simp [Reading.after]
    | none => cases scope <;> by_cases h : startsDeclaration (gaps s).rest <;> simp [h, Reading.after]

/-- A program is its first gap and what is read past that gap. -/
theorem pieces_past_gap (s : List Char) : pieces s = (gaps s).pieces ++ pieces (gaps s).rest := by
  have hsteps : StepScans (declarationStep (block maxNesting) .top) :=
    declarationStep_scans (block_scans maxNesting)
  have hpast := declarationStep_past_gap (block maxNesting) .top s
  unfold pieces declarations
  cases hstep : declarationStep (block maxNesting) .top (gaps s).rest with
  | none =>
    rw [hstep] at hpast
    rw [Reading.many_of_none hstep, Reading.many_of_none hpast]
    simp
  | some r =>
    rw [hstep] at hpast
    rw [Reading.many_of_some hsteps hstep, Reading.many_of_some hsteps hpast]
    simp [Reading.after, Reading.andThen]

section Blanks

variable {w : List Char} (hw : ∀ c ∈ w, Text.isBlank c = true) (v : List Char)

include hw

theorem gaps_blanks : (gaps (w ++ v)).rest = (gaps v).rest ∧
    ∀ start, Lexis.layOut start (gaps (w ++ v)).pieces =
      Lexis.layOut (start + Text.byteLength w) (gaps v).pieces := by
  refine ⟨Lexis.passes_blanks hw v, ?_⟩
  intro start
  by_cases hnil : w = []
  · subst hnil
    rfl
  have htake : (w ++ v).takeWhile Text.isBlank = w ++ v.takeWhile Text.isBlank :=
    List.takeWhile_append_of_pos hw
  have hne : (w ++ v).takeWhile Text.isBlank ≠ [] := by
    rw [htake]
    exact List.append_ne_nil_of_left_ne_nil hnil _
  have hfirst := Lexis.gap?_of_takeWhile (κ := Category) (φ := Fault) hne
  rw [htake, Lexis.dropBlank_append hw] at hfirst
  unfold gaps
  rw [Lexis.gaps_of_some hfirst]
  simp only [Lexis.layOut, Text.byteLength_append]
  by_cases hv : v.takeWhile Text.isBlank = []
  · rw [hv, Lexis.dropBlank_of_takeWhile hv, Text.byteLength_nil, Nat.add_zero]
  · rw [Lexis.gaps_of_some (Lexis.gap?_of_takeWhile hv)]
    simp only [Lexis.layOut, Nat.add_assoc]

/-- Blanks before a program move its tokens and change nothing else. -/
theorem layOut_pieces_blanks (start : Nat) : Lexis.layOut start (pieces (w ++ v)) =
    Lexis.layOut (start + Text.byteLength w) (pieces v) := by
  obtain ⟨hrest, hgaps⟩ := gaps_blanks hw v
  have hlength : Text.byteLength (Lexis.Piece.text (gaps (w ++ v)).pieces) =
      Text.byteLength w + Text.byteLength (Lexis.Piece.text (gaps v).pieces) := by
    have hlong := congrArg Text.byteLength (scans_gaps (w ++ v)).append
    have hshort := congrArg Text.byteLength (scans_gaps v).append
    rw [hrest, Text.byteLength_append, Text.byteLength_append] at hlong
    rw [Text.byteLength_append] at hshort
    omega
  rw [pieces_past_gap (w ++ v), pieces_past_gap v, Lexis.layOut_append, Lexis.layOut_append,
    hgaps, hrest, hlength, Nat.add_assoc]

end Blanks

end GraphScribe.Program
