import GraphScribe.Proofs.Condition.Lexemes
import Mathlib.Data.List.Infix

/-! # Joined conditions

A condition is written as its lexemes with one space between two of them. Reading it gives these
lexemes back, provided that the parentheses are balanced and that a number has a sign only where an
operand may come. Whether an operand may come is a matter of the lexemes before, comments aside. -/
namespace GraphScribe.Condition

open Lexis (gap?)

abbrev Lexeme := Category × String

def joined (ls : List Lexeme) : String := " ".intercalate (ls.map (·.2))

def placeFrom (start : Nat) : List Lexeme → List (Token Category)
  | [] => []
  | l :: ls =>
    let t := Token.ofRun l.1 start l.2.toList none
    t :: placeFrom (t.stop + 1) ls

def placed (ls : List Lexeme) : List (Token Category) := placeFrom 0 ls

/-- No parenthesis is closed that was not opened, and none is left open. -/
def Balanced (cs : List Category) : Prop :=
  (∀ before ∈ cs.inits, before.count .closeParen ≤ before.count .openParen) ∧
    cs.count .closeParen = cs.count .openParen

instance (cs : List Category) : Decidable (Balanced cs) := inferInstanceAs (Decidable (_ ∧ _))

def Introduces (l : Lexeme) : Prop :=
  l.1 = .operator ∨ l.1 = .openParen ∨ l.1 = .keyword ∧ l.2 ∉ valueKeywords

instance (l : Lexeme) : Decidable (Introduces l) := inferInstanceAs (Decidable (_ ∨ _ ∨ _))

/-- An operand may come after these lexemes: comments aside there is none of them, or the last one
introduces an operand. -/
def OperandNext (before : List Lexeme) : Prop :=
  ∀ l ∈ (before.filter (·.1 ≠ .comment)).getLast?, Introduces l

instance (before : List Lexeme) : Decidable (OperandNext before) :=
  inferInstanceAs (Decidable (∀ l ∈ _, _))

structure IsCondition (ls : List Lexeme) : Prop where
  spelled : ∀ l ∈ ls, Spelled l.1 l.2.toList
  balanced : Balanced (ls.map (·.1))
  signed : ∀ before l after, ls = before ++ l :: after → Signed l.1 l.2.toList → OperandNext before

def operandAt (before : List Lexeme) : Bool :=
  before.foldl (fun operandNext l => operandAfter operandNext l.1 l.2.toList) true

theorem operandAt_snoc (before : List Lexeme) (l : Lexeme) :
    operandAt (before ++ [l]) = operandAfter (operandAt before) l.1 l.2.toList := by
  simp [operandAt]

theorem operandAfter_iff {operandNext : Bool} {l : Lexeme} (h : l.1 ≠ .comment) :
    operandAfter operandNext l.1 l.2.toList = true ↔ Introduces l := by
  obtain ⟨c, n⟩ := l
  cases c with
  | comment => exact absurd rfl h
  | keyword => simp [operandAfter, introducesOperand, Introduces]
  | _ => simp [operandAfter, introducesOperand, Introduces]

theorem operandAt_iff (before : List Lexeme) : operandAt before = true ↔ OperandNext before := by
  -- The reader goes on from what it knew before the last lexeme, so the induction is from the end.
  induction before using List.reverseRecOn with
  | nil => simp [operandAt, OperandNext]
  | append_singleton before l ih =>
    rw [operandAt_snoc]
    by_cases h : l.1 = .comment
    · rw [h]
      simpa [OperandNext, h, operandAfter] using ih
    · rw [operandAfter_iff h]
      simp [OperandNext, h]

def trail (ls : List Lexeme) : List Char := ls.flatMap fun l => ' ' :: l.2.toList

def trailPieces (ls : List Lexeme) : List Piece :=
  ls.flatMap fun l => [.blank [' '], .token l.1 l.2.toList]

def joinedPieces : List Lexeme → List Piece
  | [] => []
  | l :: ls => .token l.1 l.2.toList :: trailPieces ls

theorem toList_joined (l : Lexeme) (ls : List Lexeme) :
    (joined (l :: ls)).toList = l.2.toList ++ trail ls := by
  induction ls generalizing l with
  | nil => simp [joined, trail]
  | cons m ls ih =>
    have hm := ih m
    simp only [joined, List.map_cons, String.toList_intercalate, trail, List.flatMap_cons,
      List.intercalate_cons_cons] at hm ⊢
    rw [hm, List.append_assoc]
    rfl

theorem apart_trail (ls : List Lexeme) : Apart (trail ls) := by
  cases ls with
  | nil => exact apart_nil
  | cons l ls => exact apart_blank (by decide) _

theorem scan_nil (operandNext : Bool) : scan operandNext [] = [] := by
  have hstep : step? operandNext [] = none := by cases operandNext <;> rfl
  rw [scan]
  split
  · rfl
  · rename_i step h
    rw [hstep] at h
    cases h

theorem scan_of_step? {operandNext : Bool} {s : List Char} {step : Step}
    (h : step? operandNext s = some step) :
    scan operandNext s = step.piece :: scan step.operandNext step.rest := by
  rw [scan]
  split
  · rename_i hnone
    rw [h] at hnone
    cases hnone
  · rename_i step' h'
    rw [h] at h'
    cases h'
    rfl

/-- A token begins with no blank, so a space before it is a gap of its own. -/
theorem step?_space {operandNext after : Bool} {c : Category} {r s t : List Char}
    (h : step? operandNext s = some ⟨.token c r, after, t⟩) :
    step? operandNext (' ' :: s) = some ⟨.blank [' '], operandNext, s⟩ := by
  have hhead : s.takeWhile Text.isBlank = [] := by
    by_cases hs : s.takeWhile Text.isBlank = []
    · exact hs
    · have hgap := Lexis.gap?_of_takeWhile (κ := Category) (φ := Fault) hs
      simp [step?, hgap] at h
  have hspace : gap? (κ := Category) (φ := Fault) (' ' :: s) = some (.blank [' '], s) := by
    have hdrop : s.dropWhile Text.isBlank = s := Lexis.dropBlank_of_takeWhile hhead
    rw [Lexis.gap?_of_blank (by decide), hhead, hdrop]
  simp [step?, hspace]

structure Readable (before ls : List Lexeme) : Prop where
  spelled : ∀ l ∈ ls, Spelled l.1 l.2.toList
  signed : ∀ xs l ys, ls = xs ++ l :: ys → Signed l.1 l.2.toList → OperandNext (before ++ xs)

theorem Readable.tail {before : List Lexeme} {l : Lexeme} {ls : List Lexeme}
    (h : Readable before (l :: ls)) : Readable (before ++ [l]) ls where
  spelled := fun m hm => h.spelled m (List.mem_cons_of_mem l hm)
  signed := by
    intro xs m ys hls hm
    rw [List.append_assoc]
    exact h.signed (l :: xs) m ys (by rw [hls]; rfl) hm

theorem Readable.step {before : List Lexeme} {l : Lexeme} {ls : List Lexeme}
    (h : Readable before (l :: ls)) : step? (operandAt before) (l.2.toList ++ trail ls) =
      some ⟨.token l.1 l.2.toList, operandAt (before ++ [l]), trail ls⟩ := by
  rw [operandAt_snoc]
  apply step?_spelled (h.spelled l List.mem_cons_self) ((apart_trail ls).ends _ _ _)
  intro hsign
  apply (operandAt_iff before).mpr
  simpa using h.signed [] l ls rfl hsign

theorem scan_trail {before ls : List Lexeme} (h : Readable before ls) :
    scan (operandAt before) (trail ls) = trailPieces ls := by
  induction ls generalizing before with
  | nil => exact scan_nil _
  | cons l ls ih =>
    have hstep := h.step
    have htrail : trail (l :: ls) = ' ' :: (l.2.toList ++ trail ls) := rfl
    rw [htrail, scan_of_step? (step?_space hstep), scan_of_step? hstep, ih h.tail]
    rfl

def category? : Piece → Option Category
  | .token c _ => some c
  | _ => none

def opens (ps : List Piece) : Nat := (ps.filterMap category?).count .openParen

def closes (ps : List Piece) : Nat := (ps.filterMap category?).count .closeParen

theorem opens_append (ps qs : List Piece) : opens (ps ++ qs) = opens ps + opens qs := by
  rw [opens, List.filterMap_append, List.count_append]
  rfl

theorem closes_append (ps qs : List Piece) : closes (ps ++ qs) = closes ps + closes qs := by
  rw [closes, List.filterMap_append, List.count_append]
  rfl

theorem opens_cons (p : Piece) (ps : List Piece) : opens (p :: ps) = opens [p] + opens ps :=
  opens_append [p] ps

theorem closes_cons (p : Piece) (ps : List Piece) : closes (p :: ps) = closes [p] + closes ps :=
  closes_append [p] ps

@[simp] theorem category?_token (c : Category) (run : List Char) :
    category? (.token c run) = some c := rfl

@[simp] theorem category?_blank (run : List Char) : category? (.blank run) = none := rfl

theorem category?_eq_some {p : Piece} {c : Category} :
    category? p = some c ↔ ∃ run, p = .token c run := by
  cases p <;> simp [category?]

theorem paren_cases (p : Piece) : (∃ run, p = .token .openParen run) ∨
    (∃ run, p = .token .closeParen run) ∨
      (category? p ≠ some .openParen ∧ category? p ≠ some .closeParen) := by
  simp only [ne_eq, category?_eq_some]
  tauto

theorem count_of_ne {p : Piece} {c : Category} (h : category? p ≠ some c) :
    ([p].filterMap category?).count c = 0 := by
  rw [List.count_eq_zero, List.mem_filterMap]
  rintro ⟨q, hq, hc⟩
  rw [List.mem_singleton.mp hq] at hc
  exact h hc

theorem markStrayCloses_cons (depth : Nat) (p : Piece) (ps : List Piece) : ∃ q left,
    markStrayCloses depth (p :: ps) = q :: markStrayCloses left ps ∧
      left + closes [q] = depth + opens [q] ∧
      (q = p ∨ depth = 0 ∧ ∃ run, p = .token .closeParen run ∧ q = .fault .strayClose run) := by
  rcases paren_cases p with ⟨run, rfl⟩ | ⟨run, rfl⟩ | ⟨hopen, hclose⟩
  · exact ⟨_, depth + 1, rfl, rfl, .inl rfl⟩
  · cases depth with
    | zero => exact ⟨_, 0, rfl, rfl, .inr ⟨rfl, run, rfl, rfl⟩⟩
    | succ depth => exact ⟨_, depth, rfl, rfl, .inl rfl⟩
  · refine ⟨p, depth, ?_, by rw [opens, closes, count_of_ne hopen, count_of_ne hclose], .inl rfl⟩
    rw [markStrayCloses]
    · rintro run rfl
      exact hopen rfl
    · rintro run _ rfl
      exact hclose rfl
    · rintro _ run _ rfl
      exact hclose rfl

theorem markUnclosed_cons (p : Piece) (ps : List Piece) : ∃ q free,
    markUnclosed (p :: ps) = (free, q :: (markUnclosed ps).2) ∧
      free + opens [q] = (markUnclosed ps).1 + closes [q] ∧
      (q = p ∨ free = 0 ∧ (markUnclosed ps).1 = 0 ∧
        ∃ run, p = .token .openParen run ∧ q = .fault .unclosedParen run) := by
  rcases paren_cases p with ⟨run, rfl⟩ | ⟨run, rfl⟩ | ⟨hopen, hclose⟩
  · rw [markUnclosed]
    rcases markUnclosed ps with ⟨_ | free, marked⟩
    · exact ⟨_, 0, rfl, rfl, .inr ⟨rfl, rfl, run, rfl, rfl⟩⟩
    · exact ⟨_, free, rfl, rfl, .inl rfl⟩
  · exact ⟨_, (markUnclosed ps).1 + 1, rfl, rfl, .inl rfl⟩
  · have hcounts : opens [p] = closes [p] := by
      rw [opens, closes, count_of_ne hopen, count_of_ne hclose]
    refine ⟨p, (markUnclosed ps).1, ?_, congrArg _ hcounts, .inl rfl⟩
    rw [markUnclosed]
    · rintro run rfl
      exact hclose rfl
    · rintro run rfl
      exact hopen rfl

theorem markStrayCloses_of_counts {depth : Nat} {ps : List Piece}
    (h : ∀ before, before <+: ps → closes before ≤ depth + opens before) :
    markStrayCloses depth ps = ps := by
  induction ps generalizing depth with
  | nil => rfl
  | cons p ps ih =>
    obtain ⟨q, left, hmark, hleft, rfl | ⟨hzero, run, rfl, -⟩⟩ := markStrayCloses_cons depth p ps
    · rw [hmark, ih]
      intro before hb
      have := h (q :: before) (List.cons_prefix_cons.mpr ⟨rfl, hb⟩)
      rw [opens_cons, closes_cons] at this
      omega
    · have : 1 ≤ depth + 0 := h [.token .closeParen run] ⟨ps, rfl⟩
      omega

/-- Where every opening parenthesis of the front has a partner in it, none of the front is marked. -/
theorem markUnclosed_append {ps : List Piece}
    (h : ∀ after, after <:+ ps → opens after ≤ closes after) (qs : List Piece) :
    markUnclosed (ps ++ qs) =
      ((markUnclosed qs).1 + (closes ps - opens ps), ps ++ (markUnclosed qs).2) := by
  induction ps with
  | nil => rfl
  | cons p ps ih =>
    -- The partners of the opening parentheses come later, so the counts are over suffixes.
    have ih := ih fun after ha => h after (ha.trans (List.suffix_cons p ps))
    have hps := h ps (List.suffix_cons p ps)
    have hall := h (p :: ps) (List.suffix_refl _)
    rw [opens_cons, closes_cons] at hall ⊢
    obtain ⟨q, free, hmark, hfree, rfl | ⟨-, hzero, run, rfl, -⟩⟩ := markUnclosed_cons p (ps ++ qs)
    · rw [ih] at hmark hfree
      rw [List.cons_append, List.cons_append, hmark, Prod.mk.injEq]
      exact ⟨by omega, rfl⟩
    · rw [ih] at hzero
      have hone : opens [.token .openParen run] = 1 := rfl
      have hnone : closes [.token .openParen run] = 0 := rfl
      omega

theorem pieces_of_balanced {s : List Char}
    (h : Balanced ((scan true s).filterMap category?)) : pieces s = scan true s := by
  have hstray : markStrayCloses 0 (scan true s) = scan true s := by
    apply markStrayCloses_of_counts
    intro before hb
    have := h.1 (before.filterMap category?) ((List.mem_inits _ _).mpr (hb.filterMap _))
    unfold closes opens
    omega
  have hpartners : ∀ after, after <:+ scan true s → opens after ≤ closes after := by
    rintro after ⟨before, hsplit⟩
    have hprefix : before.filterMap category? <+: (scan true s).filterMap category? :=
      ⟨after.filterMap category?, by rw [← List.filterMap_append, hsplit]⟩
    have hb := h.1 _ ((List.mem_inits _ _).mpr hprefix)
    have htotal := h.2
    rw [← hsplit, List.filterMap_append, List.count_append, List.count_append] at htotal
    unfold closes opens
    omega
  have hmarked := markUnclosed_append hpartners []
  rw [List.append_nil] at hmarked
  rw [pieces, hstray, hmarked]
  exact List.append_nil _

theorem IsCondition.readable {ls : List Lexeme} (h : IsCondition ls) : Readable [] ls where
  spelled := h.spelled
  signed := fun xs l ys hls hl => h.signed xs l ys hls hl

theorem scan_joined {ls : List Lexeme} (h : IsCondition ls) :
    scan true (joined ls).toList = joinedPieces ls := by
  have hr := h.readable
  cases ls with
  | nil => exact scan_nil true
  | cons l ls =>
    have hstep : step? true (l.2.toList ++ trail ls) = _ := hr.step
    rw [toList_joined, scan_of_step? hstep, scan_trail hr.tail]
    rfl

theorem categories_trailPieces (ls : List Lexeme) :
    (trailPieces ls).filterMap category? = ls.map (·.1) := by
  induction ls with
  | nil => rfl
  | cons l ls ih =>
    have htrail : trailPieces (l :: ls) =
        .blank [' '] :: .token l.1 l.2.toList :: trailPieces ls := rfl
    simp [htrail, List.filterMap_cons, ih]

theorem categories_joinedPieces (ls : List Lexeme) :
    (joinedPieces ls).filterMap category? = ls.map (·.1) := by
  cases ls with
  | nil => rfl
  | cons l ls => simp [joinedPieces, categories_trailPieces]

theorem layOut_trailPieces (start : Nat) (ls : List Lexeme) :
    Lexis.layOut start (trailPieces ls) = placeFrom (start + 1) ls := by
  induction ls generalizing start with
  | nil => rfl
  | cons l ls ih =>
    have htrail : trailPieces (l :: ls) =
        .blank [' '] :: .token l.1 l.2.toList :: trailPieces ls := rfl
    rw [htrail, Lexis.layOut, Lexis.layOut, ih]
    rfl

theorem layOut_joinedPieces (ls : List Lexeme) :
    Lexis.layOut 0 (joinedPieces ls) = placed ls := by
  cases ls with
  | nil => rfl
  | cons l ls =>
    rw [joinedPieces, Lexis.layOut, layOut_trailPieces]
    rfl

theorem category_of_mem_placeFrom {start : Nat} {ls : List Lexeme} {t : Token Category}
    (h : t ∈ placeFrom start ls) : ∃ l ∈ ls, t.category = l.1 := by
  induction ls generalizing start with
  | nil => cases h
  | cons l ls ih =>
    rw [placeFrom, List.mem_cons] at h
    rcases h with rfl | h
    · exact ⟨l, List.mem_cons_self, rfl⟩
    · obtain ⟨m, hm, ht⟩ := ih h
      exact ⟨m, List.mem_cons_of_mem l hm, ht⟩

def degreeCondition : List Lexeme :=
  [(.keyword, "not"), (.openParen, "("), (.keyword, "indeg"), (.openParen, "("),
    (.identifier, "n_1"), (.closeParen, ")"), (.operator, "!="), (.comment, "/* two */"),
    (.number, "-2"), (.keyword, "and"), (.quotedString, "\"a b\""), (.operator, "="),
    (.identifier, "x"), (.closeParen, ")"), (.keyword, "or"), (.keyword, "true"),
    (.operator, "-"), (.number, "3")]

theorem isCondition_degreeCondition : IsCondition degreeCondition where
  spelled := by
    simp only [degreeCondition, List.forall_mem_cons]
    refine ⟨.keyword (by decide), .openParen, .keyword (by decide), .openParen,
      .identifier (by decide) (by decide), .closeParen, .operator (by decide), ?_, ?_,
      .keyword (by decide), ?_, .operator (by decide), .identifier (by decide) (by decide),
      .closeParen, .keyword (by decide), .keyword (by decide), .operator (by decide), ?_, by simp⟩
    · exact @Spelled.comment [' ', 't', 'w', 'o', ' '] (by decide)
    · exact @Spelled.signed ['2'] (by simp) (List.forall_mem_singleton.mpr rfl)
    · exact @Spelled.quotedString ['a', ' ', 'b'] (by simp)
    · exact @Spelled.number ['3'] (by simp) (List.forall_mem_singleton.mpr rfl)
  balanced := by decide
  signed := by
    intro before l after hls hsign
    have hplace : ∀ i < 18, ∀ l ∈ degreeCondition[i]?, Signed l.1 l.2.toList →
        OperandNext (degreeCondition.take i) := by decide
    have hlength : before.length < 18 := by
      have := congrArg List.length hls
      simp [degreeCondition] at this
      omega
    have := hplace before.length hlength l (by rw [hls]; simp) hsign
    rwa [hls, List.take_left] at this

end GraphScribe.Condition
