import GraphScribe.Proofs.Program.Completeness
import GraphScribe.Proofs.Program.Nesting
import GraphScribe.Proofs.Program.Tail

/-! # Blanks and comments put between tokens

Before any token of a text without errors, blanks or a complete comment can be put in, and the
tokens stay what they are, but for two places where the reader looks at the raw text: right after
the parenthesis of a block that begins with a declaration, where any gap is noticed, and between a
name that is declared in a block and its equals sign, where a comment is. -/
namespace GraphScribe.Program

open Lexis (Reads Filler Passes)

/-- The gap before a letter is one that the reader accepts where the letter stands. -/
structure Fits (x : Spaced) (q : Spot) : Prop where
  glued : categoryOf x.2 = .declaration → q.opened = true → x.1 = []
  bare : categoryOf x.2 = .declarationOperator → 0 < q.depth → x.OnlyBlanks

theorem fits_of_other {x : Spaced} {q : Spot} (hd : categoryOf x.2 ≠ .declaration)
    (hs : categoryOf x.2 ≠ .declarationOperator) : Fits x q :=
  ⟨fun h => absurd h hd, fun h => absurd h hs⟩

theorem Spaced.Is.category {c : Category} {r : List Char} {x : Spaced} (h : x.Is c r) :
    categoryOf x.2 = c := by
  rw [h.1]
  rfl

theorem fits_of_stands {a : Letter} (h : located.Stands a) : Fits a.1 a.2 := by
  cases h with
  | keyword _ h =>
    have hc := Spaced.Is.category h
    exact fits_of_other (by rw [hc]; decide) (by rw [hc]; decide)
  | mark h =>
    obtain ⟨hne, ch, hch, h⟩ := h
    have hc := h.category
    refine fits_of_other ?_ (by rwa [hc])
    rw [hc]
    rintro rfl
    cases hch
  | name h =>
    obtain ⟨_, _, h⟩ := h
    have hc := h.category
    exact fits_of_other (by rw [hc]; decide) (by rw [hc]; decide)
  | declared h =>
    obtain ⟨⟨_, _, h, hfirst⟩, hopened⟩ := h
    refine ⟨fun _ hq => hfirst (hopened.mpr hq), fun hc => ?_⟩
    cases h.category.symm.trans hc
  | sign h =>
    obtain ⟨⟨h, hblank⟩, htop⟩ := h
    refine ⟨fun hc => ?_, fun _ hq => hblank fun hp => ?_⟩
    · cases h.category.symm.trans hc
    · rw [htop.mp hp] at hq
      exact absurd hq (Nat.lt_irrefl 0)

def respaced (_ : Unit) (a : Letter) (_ : Unit) (x : Spaced) : Prop :=
  x.2 = a.1.2 ∧ (∀ p ∈ x.1, p.IsGap) ∧ Fits x a.2

theorem respaced_is {a : Letter} {x : Spaced} {c : Category} {r : List Char}
    (h : respaced () a () x) (ha : a.1.Is c r) : x.Is c r := ⟨h.1.trans ha.1, h.2.1⟩

theorem respaced_keeps : Keeps located spaced respaced fun _ => True where
  keyword := by
    rintro _ a _ x w h ha
    exact respaced_is h ha
  mark := by
    rintro _ a _ x c h ⟨_, ch, hc, ha⟩
    exact ⟨ch, hc, respaced_is h ha⟩
  name := by
    rintro _ a _ x h ⟨n, hn, ha⟩
    exact ⟨n, hn, respaced_is h ha⟩
  declared := by
    rintro _ a _ x p h ⟨⟨n, hn, ha, _⟩, hfirst⟩ _
    have hx := respaced_is h ha
    exact ⟨n, hn, hx, fun hp => h.2.2.glued hx.category (hfirst.mp hp)⟩
  sign := by
    rintro _ a _ x p h ⟨⟨ha, _⟩, htop⟩
    have hx := respaced_is h ha
    refine ⟨hx, fun hp => h.2.2.bare hx.category (Nat.pos_of_ne_zero fun hq => ?_)⟩
    exact hp (htop.mpr hq)
  opens := fun _ _ => trivial

def Spot.start : Spot := ⟨0, false⟩

section Regapping

variable {xs ys zs : List Spaced} {g : List Piece}

def regap (g : List Piece) : List Spaced → List Spaced
  | [] => []
  | x :: xs => (g, x.2) :: xs

theorem regap_lexemes : (regap g zs).map Spaced.lexeme = zs.map Spaced.lexeme := by
  cases zs <;> rfl

theorem IsLenientProgram.located (h : IsLenientProgram spaced xs) :
    LenientAt located maxNesting .top (standing .start xs) :=
  LenientAt.settles h ⟨by simp [Spot.start], by simp [Spot.start]⟩ (Or.inl (Nat.le_refl _))

theorem IsLenientProgram.fit (h : IsLenientProgram spaced xs) :
    ∀ a ∈ standing .start xs, Fits a.1 a.2 := by
  intro a ha
  refine fits_of_stands ?_
  rcases h.located with h | h
  · exact h.stand (block_stand maxNesting) a ha
  · exact h.stand (block_stand maxNesting) a ha

theorem standing_respaced {q : Spot} (hfit : ∀ a ∈ standing q xs, Fits a.1 a.2)
    (hgap : ∀ x ∈ xs, ∀ p ∈ x.1, p.IsGap) : Rewrites respaced () (standing q xs) () xs := by
  induction xs generalizing q with
  | nil => exact .nil ()
  | cons x xs ih =>
    obtain ⟨hx, hxs⟩ := List.forall_mem_cons.mp hfit
    obtain ⟨hg, hgs⟩ := List.forall_mem_cons.mp hgap
    exact .cons ⟨rfl, hg, hx⟩ (ih hxs hgs)

/-- One gap of a program can be replaced by another exactly if that fits where it comes to stand. -/
theorem lenient_regap_iff (hP : IsLenientProgram spaced (ys ++ zs))
    (hgap : ∀ x ∈ ys ++ zs, ∀ p ∈ x.1, p.IsGap) (hg : ∀ p ∈ g, p.IsGap) :
    IsLenientProgram spaced (ys ++ regap g zs) ↔
      ∀ x, zs.head? = some x → Fits (g, x.2) (leave .start ys) := by
  cases zs with
  | nil => simpa [regap] using hP
  | cons x zs =>
    have hfit := hP.fit
    rw [standing_append] at hfit
    obtain ⟨hfy, hfz⟩ := List.forall_mem_append.mp hfit
    obtain ⟨hgy, hgz⟩ := List.forall_mem_append.mp hgap
    constructor
    · intro h y hy
      cases hy
      refine h.fit ((g, x.2), leave .start ys) ?_
      rw [standing_append]
      exact List.mem_append_right _ List.mem_cons_self
    · intro hx
      have hone : respaced () (x, leave .start ys) () (g, x.2) := ⟨rfl, hg, hx x rfl⟩
      have hrest := standing_respaced (List.forall_mem_cons.mp hfz).2
        (List.forall_mem_cons.mp hgz).2
      have hall := (standing_respaced hfy hgy).append (.cons hone hrest)
      have hlocated := hP.located
      rw [standing_append] at hlocated
      exact hlocated.rewrite respaced_keeps (by decide) hall

end Regapping

theorem Laid.unique {s t u : List Char} {xs ys : List Spaced} (h : Laid s xs t) (k : Laid s ys u)
    (hx : Clean (flatten xs)) (hy : Clean (flatten ys))
    (heq : xs.map Spaced.lexeme = ys.map Spaced.lexeme) : xs = ys := by
  induction h generalizing ys u with
  | nil => exact (List.map_eq_nil_iff.mp heq.symm).symm
  | @cons s x t xs u' hg hr _ ih =>
    cases k with
    | nil => cases heq
    | @cons _ y _ ys _ hg' hr' hl' =>
      rw [flatten_cons, clean_append, clean_cons] at hx hy
      obtain ⟨hone, hmore⟩ := List.cons.inj heq
      obtain ⟨hrun, rfl⟩ := reads_unique hr hr'
      obtain ⟨c, hc, _⟩ := token_of_clean hr (gap?_rest_gaps s) hx.2.1
      obtain ⟨d, hd, _⟩ := token_of_clean hr' (gap?_rest_gaps s) hy.2.1
      have hcat : c = d := by
        have hcats := congrArg Prod.fst hone
        simp only [Spaced.lexeme] at hcats
        rwa [hc, hd] at hcats
      have hletter : x = y := Prod.ext (hg.symm.trans hg') (by rw [hc, hd, hcat, hrun])
      rw [hletter, ih hl' hx.2.2 hy.2.2 hmore]

theorem Laid.regap {s s' t : List Char} {xs : List Spaced} (h : Laid s xs t)
    (hrest : (gaps s').rest = (gaps s).rest) :
    ∃ t', Laid s' (regap (gaps s').pieces xs) t' ∧ (gaps t').rest = (gaps t).rest := by
  cases h with
  | nil => exact ⟨s', .nil s', hrest⟩
  | cons _ hr hl =>
    rw [← hrest] at hr
    exact ⟨t, .cons rfl hr hl, rfl⟩

/-- A place in a gap of a layout: the letters before and after the gap, the text from the gap on,
and the parts of the gap before and after the place. -/
structure GapPlace (s t : List Char) (xs : List Spaced) where
  before : List Spaced
  after : List Spaced
  rest : List Char
  front : List Piece
  back : List Piece
  letters : xs = before ++ after
  laid_before : Laid s before rest
  laid_after : Laid rest after t
  gap : (gaps rest).pieces = front ++ back

namespace GapPlace

variable {s t w : List Char} {xs : List Spaced} (k : GapPlace s t xs)

def passed : List Piece := flatten k.before ++ k.front

def ahead : List Char := Lexis.Piece.text k.back ++ (gaps k.rest).rest

def filled (w : List Char) : List Char := Lexis.Piece.text k.front ++ (w ++ k.ahead)

def lettersWith (w : List Char) : List Spaced :=
  k.before ++ regap (gaps (k.filled w)).pieces k.after

def later {s t u : List Char} {x : Spaced} {xs : List Spaced} (hg : (gaps s).pieces = x.1)
    (hr : Reads recast (gaps s).rest x.2 u) (k : GapPlace u t xs) : GapPlace s t (x :: xs) :=
  { k with
    before := x :: k.before
    letters := congrArg (x :: ·) k.letters
    laid_before := .cons hg hr k.laid_before }

theorem gap_append : Lexis.Piece.text k.front ++ k.ahead = k.rest := by
  have h := (scans_gaps k.rest).append
  rwa [k.gap, Lexis.Piece.text_append, List.append_assoc] at h

theorem append : Lexis.Piece.text k.passed ++ k.ahead = s := by
  rw [passed, Lexis.Piece.text_append, List.append_assoc, k.gap_append]
  exact k.laid_before.append

variable (hw : Filler w) (hne : k.ahead ≠ [])

include hw hne

theorem gaps_filled : (gaps (k.filled w)).rest = (gaps k.rest).rest := by
  have hfront : Passes Category Fault (Lexis.Piece.text k.front) :=
    Lexis.passes_of_gaps (show Lexis.gaps k.rest = (k.front ++ k.back, (gaps k.rest).rest) by
      rw [← k.gap]; rfl) hne
  have hfilled : (gaps (k.filled w)).rest = (gaps k.ahead).rest :=
    (hfront _).trans (hw.passes _)
  have hrest : (gaps (Lexis.Piece.text k.front ++ k.ahead)).rest = (gaps k.ahead).rest := hfront _
  rw [hfilled, ← hrest, k.gap_append]

theorem text_filled : Lexis.Piece.text (gaps (k.filled w)).pieces =
    Lexis.Piece.text k.front ++ (w ++ Lexis.Piece.text k.back) := by
  have h := (scans_gaps (k.filled w)).append
  have hsplit : k.filled w =
      (Lexis.Piece.text k.front ++ (w ++ Lexis.Piece.text k.back)) ++ (gaps k.rest).rest := by
    simp [filled, ahead]
  rw [k.gaps_filled hw hne] at h
  exact List.append_cancel_right (h.trans hsplit)

theorem laid_with (hclean : Clean (flatten xs)) :
    ∃ u, Laid (Lexis.Piece.text k.passed ++ (w ++ k.ahead)) (k.lettersWith w) u ∧
      (gaps u).rest = (gaps t).rest := by
  obtain ⟨u, hafter, hend⟩ := k.laid_after.regap (k.gaps_filled hw hne)
  refine ⟨u, ?_, hend⟩
  rw [k.letters, flatten_append] at hclean
  -- at the front of the gap `w` itself ends the word before it; further on the first character stays
  have hhead : (k.filled w).head? = k.rest.head? ∨ Text.wordEnds (k.filled w) = true := by
    cases htext : Lexis.Piece.text k.front with
    | nil =>
      right
      rw [filled, htext]
      exact hw.wordEnds _
    | cons c r =>
      left
      rw [← k.gap_append, filled, htext]
      rfl
  have hbefore := k.laid_before.tail (clean_append.mp hclean).1 hhead
  have hall := hbefore.trans hafter
  rwa [filled, ← List.append_assoc, ← Lexis.Piece.text_append] at hall

end GapPlace

theorem hasErrors_eq_any (ts : Tokens Category) :
    Tokens.hasErrors ts = (significant ts).any fun l => l.1 = .error := by
  unfold Tokens.hasErrors significant Tokens.summary
  rw [← Array.any_toList, List.any_filter, List.any_map]
  refine congrArg (List.any ts.toList) (funext fun t => ?_)
  cases h : t.category <;> simp [Token.isError, h, Lexicon.error]

def spotAfter (ts : List (Token Category)) : Spot :=
  (significant ts.toArray).foldl (fun q l => q.past l.1) .start

theorem leave_eq_foldl (q : Spot) (xs : List Spaced) :
    leave q xs = (xs.map Spaced.lexeme).foldl (fun q l => q.past l.1) q := by
  induction xs generalizing q with
  | nil => rfl
  | cons x xs ih => exact ih _

/-- The reader notices what is put in before a token: any gap before the declaration that opens a
block, and a comment before the equals sign of a declaration in a block. -/
def Notices (q : Spot) (c : Category) (w : List Char) : Prop :=
  (c = .declaration ∧ q.opened = true) ∨
    (c = .declarationOperator ∧ 0 < q.depth ∧ w.all Text.isBlank = false)

instance (q : Spot) (c : Category) (w : List Char) : Decidable (Notices q c w) :=
  inferInstanceAs (Decidable (_ ∨ _))

theorem gaps_blank_iff (s : List Char) : (∀ p ∈ (gaps s).pieces, ∃ r, p = .blank r) ↔
    ∀ c ∈ Lexis.Piece.text (gaps s).pieces, Text.isBlank c = true := by
  have hscan : Lexis.Scan recast s (gaps s).pieces (gaps s).rest := scans_gaps s
  constructor
  · intro h c hc
    obtain ⟨p, hp, hcp⟩ := List.mem_flatMap.mp hc
    obtain ⟨r, rfl⟩ := h p hp
    exact hscan.proper _ hp c hcp
  · intro h p hp
    have hgap := isGap_of_mem_gaps s p hp
    cases p with
    | blank r => exact ⟨r, rfl⟩
    | fault f r => exact hgap.elim
    | token c r =>
      obtain rfl : c = .comment := hgap
      obtain ⟨before, after, heq⟩ := List.append_of_mem hp
      rw [heq] at hscan
      obtain ⟨body, rfl, _⟩ := Lexis.readComment_cases hscan.reads_of_mem.comment
      have hslash := h '/' (List.mem_flatMap.mpr ⟨_, hp, List.mem_cons_self⟩)
      exact absurd hslash (by decide)

namespace GapPlace

variable {s t w : List Char} {xs : List Spaced} (k : GapPlace s t xs)

def Before (p : Piece) : Prop :=
  (∃ ps, k.back = p :: ps) ∨ (k.back = [] ∧ ∃ x, k.after.head? = some x ∧ x.2 = p)

theorem exists_of_laid {before after : List Piece} {p : Piece} (h : Laid s xs t)
    (heq : flatten xs ++ (gaps t).pieces = before ++ p :: after) :
    ∃ k : GapPlace s t xs, k.passed = before ∧ k.Before p := by
  induction h generalizing before with
  | nil s =>
    exact ⟨⟨[], [], s, before, p :: after, rfl, .nil s, .nil s, heq⟩, rfl, Or.inl ⟨after, rfl⟩⟩
  | @cons s x u xs t hg hr hl ih =>
    rw [flatten_cons, List.append_assoc] at heq
    have atLetter : x.1 = before → x.2 = p →
        ∃ k : GapPlace s t (x :: xs), k.passed = before ∧ k.Before p := by
      rintro hx rfl
      exact ⟨⟨[], x :: xs, s, before, [], rfl, .nil s, .cons hg hr hl, by simp [hg, hx]⟩, rfl,
        Or.inr ⟨rfl, x, rfl, rfl⟩⟩
    -- the piece is the first letter, comes after it, or is in the gap before it
    rcases List.append_eq_append_iff.mp heq with ⟨v, rfl, hv⟩ | ⟨v, hx, hv⟩
    · cases v with
      | nil => exact atLetter (List.append_nil _).symm (List.cons.inj hv).1
      | cons q v =>
        obtain ⟨rfl, hmore⟩ := List.cons.inj hv
        obtain ⟨k, rfl, hk⟩ := ih hmore
        exact ⟨k.later hg hr, by simp [later, passed], hk⟩
    · cases v with
      | nil => exact atLetter (by simpa using hx) (List.cons.inj hv).1.symm
      | cons q v =>
        obtain ⟨rfl, -⟩ := List.cons.inj hv
        exact ⟨⟨[], x :: xs, s, before, p :: v, rfl, .nil s, .cons hg hr hl, hg.trans hx⟩, rfl,
          Or.inl ⟨v, rfl⟩⟩

variable {k} {p : Piece}

theorem Before.ahead_ne_nil (h : k.Before p) (hp : p.run ≠ []) : k.ahead ≠ [] := by
  rcases h with ⟨ps, hback⟩ | ⟨_, x, hx, rfl⟩
  · simp [ahead, hback, hp]
  · have hl := k.laid_after
    obtain ⟨zs, hzs⟩ := List.head?_eq_some_iff.mp hx
    rw [hzs] at hl
    cases hl with
    | cons _ hr _ =>
      rw [ahead, ← hr.append]
      simp [hp]

theorem head_fits (hfit : ∀ a ∈ standing .start xs, Fits a.1 a.2) {x : Spaced}
    (hx : k.after.head? = some x) :
    Fits x (leave .start k.before) ∧ x.1 = k.front ++ k.back := by
  obtain ⟨zs, hzs⟩ := List.head?_eq_some_iff.mp hx
  constructor
  · have hall : standing .start xs = standing .start (k.before ++ k.after) :=
      congrArg (standing .start) k.letters
    refine hfit (x, leave .start k.before) ?_
    rw [hall, standing_append, hzs]
    exact List.mem_append_right _ List.mem_cons_self
  · have hl := k.laid_after
    rw [hzs] at hl
    cases hl with
    | cons hg _ _ => rw [← hg, k.gap]

/-- Where a comment comes next, the reader accepts any gap before the next letter. -/
theorem fits_of_comment_next {ps : List Piece} (hfit : ∀ a ∈ standing .start xs, Fits a.1 a.2)
    (hback : k.back = p :: ps) {r : List Char} (hp : p = .token .comment r) {x : Spaced}
    (hx : k.after.head? = some x) (g : List Piece) : Fits (g, x.2) (leave .start k.before) := by
  obtain ⟨hold, hgap⟩ := head_fits hfit hx
  rw [hback] at hgap
  constructor
  · intro hc hq
    have hnil := hold.glued hc hq
    simp [hgap] at hnil
  · intro hc hq
    obtain ⟨_, hblank⟩ := hold.bare hc hq p (by simp [hgap])
    cases hp.symm.trans hblank

theorem fits_of_letter_next_iff (hfit : ∀ a ∈ standing .start xs, Fits a.1 a.2) (hw : Filler w)
    (hne : k.ahead ≠ []) (hback : k.back = []) {x : Spaced} (hx : k.after.head? = some x) :
    Fits ((gaps (k.filled w)).pieces, x.2) (leave .start k.before) ↔
      ¬Notices (leave .start k.before) (categoryOf x.2) w := by
  obtain ⟨hold, hx1⟩ := head_fits hfit hx
  have hgap := k.gap
  have hfilled := k.text_filled hw hne
  rw [hback, List.append_nil] at hx1 hgap
  rw [hback, Lexis.Piece.text_nil, List.append_nil] at hfilled
  have hglued : (gaps (k.filled w)).pieces ≠ [] := by
    intro hnil
    rw [hnil] at hfilled
    exact hw.ne_nil (List.append_eq_nil_iff.mp hfilled.symm).2
  -- the old gap before a sign has no comments, so the new one has none exactly if `w` has none
  have hbare : categoryOf x.2 = .declarationOperator → 0 < (leave .start k.before).depth →
      ((∀ p ∈ (gaps (k.filled w)).pieces, ∃ r, p = .blank r) ↔ w.all Text.isBlank = true) := by
    intro hc hq
    have hfront := (gaps_blank_iff k.rest).mp (by rw [hgap, ← hx1]; exact hold.bare hc hq)
    rw [hgap] at hfront
    rw [gaps_blank_iff, hfilled, List.forall_mem_append, List.all_eq_true]
    exact and_iff_right hfront
  constructor
  · rintro hnew (⟨hc, hq⟩ | ⟨hc, hq, hcomment⟩)
    · exact hglued (hnew.glued hc hq)
    · rw [(hbare hc hq).mp (hnew.bare hc hq)] at hcomment
      cases hcomment
  · intro h
    refine ⟨fun hc hq => absurd (Or.inl ⟨hc, hq⟩) h, fun hc hq => (hbare hc hq).mpr ?_⟩
    by_contra hcomment
    exact h (Or.inr ⟨hc, hq, Bool.eq_false_iff.mpr hcomment⟩)

/-- What is put into a gap fits exactly if it is not noticed before the token that comes next. -/
theorem fits_filled_iff (hfit : ∀ a ∈ standing .start xs, Fits a.1 a.2) (hw : Filler w)
    (hp : k.Before p) {n : Nat} {tok : Token Category} (htok : p.token? n = some tok)
    (hne : k.ahead ≠ []) :
    (∀ x, k.after.head? = some x →
        Fits ((gaps (k.filled w)).pieces, x.2) (leave .start k.before)) ↔
      ¬Notices (leave .start k.before) tok.category w := by
  have hcat : tok.category = categoryOf p := by
    cases p <;> cases htok <;> rfl
  rcases hp with ⟨ps, hback⟩ | ⟨hback, x, hx, rfl⟩
  · have hgap : p.IsGap := isGap_of_mem_gaps k.rest p (by rw [k.gap, hback]; simp)
    obtain ⟨r, rfl⟩ : ∃ r, p = .token .comment r := by
      cases p with
      | blank r => cases htok
      | token c r => obtain rfl : c = .comment := hgap; exact ⟨r, rfl⟩
      | fault f r => exact hgap.elim
    refine iff_of_true (fun x hx => fits_of_comment_next hfit hback rfl hx _) ?_
    rw [hcat]
    rintro (⟨h, _⟩ | ⟨h, _⟩) <;> cases h
  · rw [hcat, ← fits_of_letter_next_iff hfit hw hne hback hx]
    constructor
    · exact fun h => h x hx
    · intro h y hy
      cases hx.symm.trans hy
      exact h

end GapPlace

theorem clean_regap {g : List Piece} {zs : List Spaced} (hg : Clean g) (h : Clean (flatten zs)) :
    Clean (flatten (regap g zs)) := by
  cases zs with
  | nil => exact h
  | cons x zs =>
    rw [flatten_cons, clean_append] at h
    rw [regap, flatten_cons, clean_append]
    exact ⟨hg, h.2⟩

namespace GapPlace

variable {s t w : List Char} {xs : List Spaced} (k : GapPlace s t xs)

def textWith (w : List Char) : List Char := Lexis.Piece.text k.passed ++ (w ++ k.ahead)

include k in
theorem laid : Laid s xs t := by
  rw [k.letters]
  exact k.laid_before.trans k.laid_after

theorem significant_passed (start : Nat) :
    significant (Lexis.layOut start k.passed).toArray = k.before.map Spaced.lexeme := by
  have hfront : ∀ p ∈ k.front, p.IsGap := fun p hp =>
    isGap_of_mem_gaps k.rest p (by rw [k.gap]; exact List.mem_append_left _ hp)
  rw [significant_layOut, passed, List.filterMap_append, filterMap_gap hfront, List.append_nil,
    k.laid_before.filterMap_flatten, k.laid_before.lexemes]

theorem lexemes_with : (k.lettersWith w).map Spaced.lexeme = xs.map Spaced.lexeme := by
  rw [lettersWith, List.map_append, regap_lexemes, ← List.map_append, ← k.letters]

theorem clean_with (hclean : Clean (flatten xs)) : Clean (flatten (k.lettersWith w)) := by
  rw [k.letters, flatten_append, clean_append] at hclean
  rw [lettersWith, flatten_append, clean_append]
  exact ⟨hclean.1, clean_regap (clean_gaps _) hclean.2⟩

/-- The letters are still a program exactly if the reader accepts the gap that has grown. -/
theorem lenient_with_iff (hP : IsLenientProgram spaced xs) :
    IsLenientProgram spaced (k.lettersWith w) ↔ ∀ x, k.after.head? = some x →
      Fits ((gaps (k.filled w)).pieces, x.2) (leave .start k.before) := by
  have hgap := k.laid.isGap
  rw [k.letters] at hP hgap
  exact lenient_regap_iff hP hgap (isGap_of_mem_gaps _)

variable (hw : Filler w) (hne : k.ahead ≠ []) (hclean : Clean (flatten xs))

include hw hne hclean

theorem significant_with (hend : (gaps t).rest = [])
    (hP : IsLenientProgram spaced (k.lettersWith w)) :
    significant (Lexis.layOut 0 (pieces (k.textWith w))).toArray = xs.map Spaced.lexeme := by
  obtain ⟨u, hl, hu⟩ := k.laid_with hw hne hclean
  obtain ⟨n, hread⟩ := lenient_reads hP hl (hu.trans hend)
  have hpieces : pieces (k.textWith w) = flatten (k.lettersWith w) ++ (gaps u).pieces := by
    have htop : declarations (block maxNesting) .top (k.textWith w) = _ := hread
    unfold pieces
    rw [htop]
  rw [hpieces, significant_of_laid hl, k.lexemes_with]

theorem lenient_of_significant
    (herr : Tokens.hasErrors (Lexis.layOut 0 (pieces (k.textWith w))).toArray = false)
    (hsig : significant (Lexis.layOut 0 (pieces (k.textWith w))).toArray =
      xs.map Spaced.lexeme) : IsLenientProgram spaced (k.lettersWith w) := by
  have hc : Clean (pieces (k.textWith w)) :=
    clean_of_scan (scan_pieces _) (no_fault_of_no_errors herr)
  obtain ⟨ys, hy, hpieces, hP⟩ := pieces_sound hc
  obtain ⟨u, hl, _⟩ := k.laid_with hw hne hclean
  rw [hpieces] at hc hsig
  rw [significant_of_laid hy, ← k.lexemes_with (w := w)] at hsig
  rwa [← hy.unique hl (clean_append.mp hc).1 (k.clean_with hclean) hsig]

end GapPlace

/-- Of a text without errors, blanks or a comment before a token change no other token and cause no
error, exactly if they are put in where the reader does not notice them. -/
theorem significant_insert_iff (a w b : String)
    (hclean : Tokens.hasErrors (tokens (a ++ b)) = false) (before after : List (Token Category))
    (t : Token Category) (htokens : (tokens (a ++ b)).toList = before ++ t :: after)
    (hstart : t.start = Text.byteLength a.toList) (hw : Filler w.toList) :
    (significant (tokens (a ++ w ++ b)) = significant (tokens (a ++ b)) ∧
        Tokens.hasErrors (tokens (a ++ w ++ b)) = false) ↔
      ¬Notices (spotAfter before) t.category w.toList := by
  have hc : Clean (pieces (a ++ b).toList) :=
    clean_of_scan (scan_pieces _) (no_fault_of_no_errors hclean)
  have hproper := (scan_pieces (a ++ b).toList).proper
  obtain ⟨xs, hl, heq, hP⟩ := pieces_sound hc
  have hend := program_rest (a ++ b).toList
  generalize (declarations (block maxNesting) .top (a ++ b).toList).rest = u at hl heq hend
  have hold : significant (tokens (a ++ b)) = xs.map Spaced.lexeme := by
    rw [tokens, heq, significant_of_laid hl]
  have hlayout : Lexis.layOut 0 (flatten xs ++ (gaps u).pieces) = before ++ t :: after := by
    rw [← heq, ← htokens, tokens]
  obtain ⟨ps, p, qs, hsplit, hbefore, htok⟩ := Lexis.layOut_split hlayout
  obtain ⟨k, rfl, hp⟩ := GapPlace.exists_of_laid hl hsplit
  have hne : k.ahead ≠ [] := by
    refine hp.ahead_ne_nil ?_
    have hpp := hproper p (by rw [heq, hsplit]; simp)
    cases p with
    | blank r => cases htok
    | token c r => exact hpp
    | fault f r => exact hpp
  have hwhere : Lexis.Piece.text k.passed = a.toList ∧ k.ahead = b.toList := by
    refine Text.append_inj_of_byteLength (k.append.trans String.toList_append) ?_
    rw [← hstart, (Lexis.Piece.token?_span htok).1, Nat.zero_add]
  have hnew : tokens (a ++ w ++ b) = (Lexis.layOut 0 (pieces (k.textWith w.toList))).toArray := by
    rw [tokens, String.toList_append, String.toList_append, GapPlace.textWith, hwhere.1, hwhere.2,
      List.append_assoc]
  have hspot : leave .start k.before = spotAfter before := by
    rw [spotAfter, ← hbefore, k.significant_passed, leave_eq_foldl]
  rw [heq] at hc
  have hcx := (clean_append.mp hc).1
  rw [← hspot, ← GapPlace.fits_filled_iff hP.fit hw hp htok hne, ← k.lenient_with_iff hP, hnew,
    hold]
  constructor
  · rintro ⟨hsig, herr⟩
    exact k.lenient_of_significant hw hne hcx herr hsig
  · intro hlenient
    have hsig := k.significant_with hw hne hcx hend hlenient
    refine ⟨hsig, ?_⟩
    rw [hasErrors_eq_any, hsig, ← hold, ← hasErrors_eq_any]
    exact hclean

/-- A comment goes unnoticed before the period of a declaration in a block. -/
theorem significant_insert_comment :
    Tokens.hasErrors (tokens ("m = (a = b" ++ ". c).")) = false ∧
      (tokens ("m = (a = b" ++ ". c).")).toList =
        (tokens ("m = (a = b" ++ ". c).")).toList.take 6 ++
          Token.ofRun .declarationSeparator 10 ['.'] none ::
            (tokens ("m = (a = b" ++ ". c).")).toList.drop 7 ∧
      10 = Text.byteLength "m = (a = b".toList ∧ Filler " /* b */ ".toList ∧
      significant (tokens ("m = (a = b" ++ " /* b */ " ++ ". c).")) =
        significant (tokens ("m = (a = b" ++ ". c).")) ∧
      Tokens.hasErrors (tokens ("m = (a = b" ++ " /* b */ " ++ ". c).")) = false :=
  have hclean : Tokens.hasErrors (tokens ("m = (a = b" ++ ". c).")) = false := by decide +kernel
  have htokens : (tokens ("m = (a = b" ++ ". c).")).toList =
      (tokens ("m = (a = b" ++ ". c).")).toList.take 6 ++
        Token.ofRun .declarationSeparator 10 ['.'] none ::
          (tokens ("m = (a = b" ++ ". c).")).toList.drop 7 := by decide +kernel
  have hstart : 10 = Text.byteLength "m = (a = b".toList := by decide +kernel
  have hbody : Lexis.closing? [' ', 'b', ' ', '*', '/'] = some ([' ', 'b', ' ', '*', '/'], []) := by
    decide +kernel
  have hblank : ∀ c ∈ [' '], Text.isBlank c = true := List.forall_mem_singleton.mpr (by decide)
  have hw : Filler " /* b */ ".toList := .comment hblank hbody hblank
  have hunnoticed : ¬Notices (spotAfter ((tokens ("m = (a = b" ++ ". c).")).toList.take 6))
      .declarationSeparator " /* b */ ".toList := by decide +kernel
  ⟨hclean, htokens, hstart, hw,
    (significant_insert_iff _ _ _ hclean _ _ _ htokens hstart hw).mpr hunnoticed⟩

/-- One blank after a parenthesis changes tokens and causes an error. -/
theorem significant_insert_noticed :
    Tokens.hasErrors (tokens ("m = (" ++ "a = b. c).")) = false ∧
      (∃ t ∈ tokens ("m = (" ++ "a = b. c)."), t.start = Text.byteLength "m = (".toList) ∧
      Filler " ".toList ∧
      significant (tokens ("m = (" ++ " " ++ "a = b. c).")) ≠
        significant (tokens ("m = (" ++ "a = b. c).")) ∧
      Tokens.hasErrors (tokens ("m = (" ++ " " ++ "a = b. c).")) = true :=
  have hblank : ∀ c ∈ [' '], Text.isBlank c = true := List.forall_mem_singleton.mpr (by decide)
  have hw : Filler " ".toList := .blanks (by decide) hblank
  ⟨by decide +kernel, by decide +kernel, hw, by decide +kernel, by decide +kernel⟩

end GraphScribe.Program
