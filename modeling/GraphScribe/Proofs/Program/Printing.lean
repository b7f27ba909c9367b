import GraphScribe.Proofs.Program.Completeness

/-! # Printed programs

A program printed with one space between its tokens, and none after an opening parenthesis, has the
layout that the reader asks for, so the tokens read from it are the ones that were printed. -/
namespace GraphScribe.Program

open Lexis (Reads readName gap?)

/-- Printing goes on right after the text so far at the start and after an opening parenthesis, and
with a space anywhere else. -/
def spaceBefore (glued : Bool) : List Char := if glued then [] else [' ']

def printFrom : Bool → List Lexeme → List Char
  | _, [] => []
  | glued, l :: ls => spaceBefore glued ++ (l.2.toList ++ printFrom (l.1 = .openParen) ls)

/-- The lexemes with one space between two of them, but none after an opening parenthesis. -/
def printed (ls : List Lexeme) : String := String.ofList (printFrom true ls)

def placeFrom : Bool → Nat → List Lexeme → List (Token Category)
  | _, _, [] => []
  | glued, start, l :: ls =>
    let t := Token.ofRun l.1 (start + Text.byteLength (spaceBefore glued)) l.2.toList none
    t :: placeFrom (l.1 = .openParen) t.stop ls

def placed (ls : List Lexeme) : List (Token Category) := placeFrom true 0 ls

def spaceOut : Bool → List Lexeme → List Spaced
  | _, [] => []
  | glued, l :: ls =>
    (if glued then [] else [.blank [' ']], .token l.1 l.2.toList) ::
      spaceOut (l.1 = .openParen) ls

def printStep (glued : Bool) (l : Lexeme) (glued' : Bool) (x : Spaced) : Prop :=
  glued' = decide (l.1 = .openParen) ∧
    x = (if glued then [] else [.blank [' ']], .token l.1 l.2.toList)

theorem spaceOut_rewrites (glued : Bool) (ls : List Lexeme) :
    ∃ glued', Rewrites printStep glued ls glued' (spaceOut glued ls) := by
  induction ls generalizing glued with
  | nil => exact ⟨glued, .nil glued⟩
  | cons l ls ih =>
    obtain ⟨glued', h⟩ := ih (l.1 = .openParen)
    exact ⟨glued', .cons ⟨rfl, rfl⟩ h⟩

theorem printStep_is {glued glued' : Bool} {c : Category} {n : String} {x : Spaced}
    (h : printStep glued (c, n) glued' x) : x.Is c n.toList ∧ x.OnlyBlanks := by
  obtain ⟨_, rfl⟩ := h
  constructor
  · refine ⟨rfl, ?_⟩
    cases glued <;> simp [Lexis.Piece.IsGap]
  · cases glued <;> simp [Spaced.OnlyBlanks]

theorem printStep_keeps : Keeps lexemes spaced printStep fun glued => glued = true where
  keyword := by
    rintro _ _ _ x w h rfl
    exact (printStep_is h).1
  mark := by
    rintro _ _ _ x c h ⟨ch, hc, rfl⟩
    refine ⟨ch, hc, ?_⟩
    simpa using (printStep_is h).1
  name := by
    rintro _ ⟨c, n⟩ _ x h ⟨hc, hn⟩
    cases hc
    exact ⟨n, hn, (printStep_is h).1⟩
  declared := by
    rintro glued ⟨c, n⟩ _ x p h ⟨hc, hn⟩ hfirst
    cases hc
    refine ⟨n, hn, (printStep_is h).1, ?_⟩
    intro hp
    rw [h.2, hfirst hp]
    rfl
  sign := by
    rintro _ _ _ x p h rfl
    exact ⟨(printStep_is h).1, fun _ => (printStep_is h).2⟩
  opens := by
    rintro _ _ _ _ h ⟨ch, _, rfl⟩
    exact h.1

theorem readName_of_isName {n : String} {t : List Char} (hn : IsName n)
    (ht : Text.wordEnds t = true) : readName (n.toList ++ t) = some (n.toList, t) :=
  Lexis.readName_eq_some_iff.mpr ⟨hn.1, Lexis.nameEnds_of_wordEnds ht, rfl⟩

/-- A lexeme of the grammar is read where its text stands, if no word goes on after it. -/
theorem reads_lexeme {l : Lexeme} (h : lexemes.Stands l) {t : List Char}
    (ht : l.1 = .openParen ∨ Text.wordEnds t = true) :
    Reads recast (l.2.toList ++ t) (.token l.1 l.2.toList : Piece) t := by
  cases h with
  | @keyword w _ hw h =>
    cases h
    have hend : Text.wordEnds t = true := ht.resolve_left (by simp)
    refine reads_token (read?_keyword.mpr ⟨?_, by rwa [String.ofList_toList], hend⟩) (by simp)
    exact Lexis.readName_eq_some_iff.mpr ⟨nameShaped_of_reserved w (mem_reservedWords.mpr hw),
      Lexis.nameEnds_of_wordEnds hend, rfl⟩
  | @mark c _ h =>
    obtain ⟨ch, hc, rfl⟩ := h
    refine reads_token ((Program.read?_mark hc).mpr ?_) ?_
    · simp
    · rintro rfl
      cases hc
  | name h =>
    obtain ⟨c, n⟩ := l
    obtain ⟨hc, hn⟩ := h
    cases hc
    have hread := readName_of_isName hn (ht.resolve_left (by simp))
    rw [← read?_identifier] at hread
    refine reads_name hread ?_
    intro hres
    rw [String.ofList_toList, hn.2] at hres
    cases hres
  | declared h =>
    obtain ⟨c, n⟩ := l
    obtain ⟨hc, hn⟩ := h
    cases hc
    have hread := readName_of_isName hn (ht.resolve_left (by simp))
    rw [← read?_identifier] at hread
    exact reads_declared hread (by rw [String.ofList_toList]; exact hn.2)
  | sign h =>
    cases h
    exact reads_token ((Program.read?_mark rfl).mpr ⟨rfl, rfl⟩) (by decide)

theorem gaps_spaceBefore (glued : Bool) {s t : List Char} {c : Category} {r : List Char}
    (h : Reads recast s (.token c r : Piece) t) (hc : c ≠ .comment) :
    gaps (spaceBefore glued ++ s) = ⟨if glued then [] else [.blank [' ']], s, 0⟩ := by
  have hgap : gap? (κ := Category) (φ := Fault) s = none := gap?_of_read? (read?_of_reads hc h)
  cases glued with
  | true =>
    unfold gaps
    rw [show spaceBefore true ++ s = s from rfl, Lexis.gaps_of_none hgap]
    rfl
  | false =>
    have hhead : Text.dropBlank s = s ∧ s.takeWhile Text.isBlank = [] := by
      cases s with
      | nil => exact ⟨rfl, rfl⟩
      | cons d s => simp [Text.dropBlank, Lexis.not_blank_of_gap?_none hgap]
    have hsome : gap? (κ := Category) (φ := Fault) (' ' :: s) = some (.blank [' '], s) := by
      rw [Lexis.gap?_of_blank (by decide), hhead.2]
      exact congrArg (fun u => some (Lexis.Piece.blank [' '], u)) hhead.1
    unfold gaps
    rw [show spaceBefore false ++ s = ' ' :: s from rfl, Lexis.gaps_of_some hsome,
      Lexis.gaps_of_none hgap]
    rfl

theorem stands_category {l : Lexeme} (h : lexemes.Stands l) : l.1 ≠ .comment ∧ l.1 ≠ .error := by
  cases h with
  | keyword _ h =>
    cases h
    simp
  | @mark c _ h =>
    obtain ⟨ch, hc, rfl⟩ := h
    constructor
    · rintro rfl
      cases hc
    · rintro rfl
      cases hc
  | name h => rw [h.1]; decide
  | declared h => rw [h.1]; decide
  | sign h =>
    cases h
    decide

theorem wordEnds_printFrom (ls : List Lexeme) : Text.wordEnds (printFrom false ls) = true := by
  cases ls with
  | nil => rfl
  | cons l ls => rfl

theorem printed_laid (glued : Bool) {ls : List Lexeme} (h : ∀ l ∈ ls, lexemes.Stands l) :
    Laid (printFrom glued ls) (spaceOut glued ls) [] := by
  induction ls generalizing glued with
  | nil => exact .nil []
  | cons l ls ih =>
    obtain ⟨hl, hls⟩ := List.forall_mem_cons.mp h
    have hends : l.1 = .openParen ∨
        Text.wordEnds (printFrom (decide (l.1 = .openParen)) ls) = true := by
      by_cases hopen : l.1 = .openParen
      · exact Or.inl hopen
      · right
        rw [decide_eq_false hopen]
        exact wordEnds_printFrom ls
    have hread := reads_lexeme hl hends
    have hgap := gaps_spaceBefore glued hread (stands_category hl).1
    refine .cons (t := printFrom (l.1 = .openParen) ls) ?_ ?_ (ih _ hls)
    · rw [printFrom, hgap]
    · rw [printFrom, hgap]
      exact hread

theorem layOut_spaceOut (glued : Bool) (start : Nat) (ls : List Lexeme) :
    Lexis.layOut start (flatten (spaceOut glued ls)) = placeFrom glued start ls := by
  induction ls generalizing glued start with
  | nil => rfl
  | cons l ls ih =>
    rw [spaceOut, flatten_cons, placeFrom]
    cases glued with
    | true => simp [Lexis.layOut, ih, spaceBefore, Token.ofRun]
    | false => simp [Lexis.layOut, ih, spaceBefore, Token.ofRun]

theorem category_of_mem_placeFrom {glued : Bool} {start : Nat} {ls : List Lexeme}
    {t : Token Category} (h : t ∈ placeFrom glued start ls) : ∃ l ∈ ls, t.category = l.1 := by
  induction ls generalizing glued start with
  | nil => cases h
  | cons l ls ih =>
    rw [placeFrom, List.mem_cons] at h
    rcases h with rfl | h
    · exact ⟨l, List.mem_cons_self, rfl⟩
    · obtain ⟨m, hm, ht⟩ := ih h
      exact ⟨m, List.mem_cons_of_mem l hm, ht⟩

def localProgram : List Lexeme :=
  [(.declaration, "main"), (.declarationOperator, "="), (.openParen, "("), (.declaration, "m"),
    (.declarationOperator, "="), (.identifier, "r"), (.declarationSeparator, "."),
    (.identifier, "m"), (.repetition, "!"), (.closeParen, ")"), (.keyword, "or"),
    (.keyword, "skip"), (.declarationSeparator, ".")]

theorem isProgram_localProgram : IsProgram lexemes localProgram := by
  have hr : lexemes.name (.identifier, "r") := ⟨rfl, by decide⟩
  have hm : lexemes.name (.identifier, "m") := ⟨rfl, by decide⟩
  have hinner : lexemes.declared .first (.declaration, "m") := ⟨rfl, by decide⟩
  have houter : lexemes.declared .top (.declaration, "main") := ⟨rfl, by decide⟩
  have hperiod : lexemes.mark .declarationSeparator (.declarationSeparator, ".") := ⟨'.', rfl, rfl⟩
  have hopen : lexemes.mark .openParen (.openParen, "(") := ⟨'(', rfl, rfl⟩
  have hclose : lexemes.mark .closeParen (.closeParen, ")") := ⟨')', rfl, rfl⟩
  have hrepeat : lexemes.mark .repetition (.repetition, "!") := ⟨'!', rfl, rfl⟩
  have hlocal : Declarations lexemes (Block lexemes 63) .first _ :=
    .cons hinner rfl (.one (.block (BlockOver.name hr))) hperiod (.nil .inner)
  have hbody : Sequence lexemes (Block lexemes 63) _ :=
    .one (.repeated (BlockOver.name hm) hrepeat)
  have hblock : Block lexemes 64 _ := BlockOver.parens hopen hlocal hbody hclose
  have hskip : Block lexemes 64 [(.keyword, "skip")] := BlockOver.skip rfl
  exact Declarations.cons houter rfl (.one (.choice hblock rfl hskip)) hperiod (.nil .top)

example : printed localProgram = "main = (m = r . m ! ) or skip ." := by decide +kernel

end GraphScribe.Program
