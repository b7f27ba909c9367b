import GraphScribe.Proofs.Condition.Steps
import Mathlib.Order.Bounds.Defs

/-! # Parentheses without a partner

A closing parenthesis is judged when it is met, an opening one after the whole text. Those in error
divide the text: before the divide only closing ones lack a partner, after it only opening ones, and
each part keeps as many of one kind as of the other. So whatever parentheses one removes to balance
the rest, one removes as many from each part as are in error there. -/
namespace GraphScribe.Condition

def parenOf? (text : String) : Option Category :=
  if text = "(" then some .openParen else if text = ")" then some .closeParen else none

/-- Every `(` and `)` among the tokens, in error or not. -/
def parens (ts : List (Token Category)) : List Category := ts.filterMap fun t => parenOf? t.text

def paired (ts : List (Token Category)) : List Category :=
  ts.filterMap fun t =>
    if t.category = .openParen ∨ t.category = .closeParen then some t.category else none

def unpaired (ts : List (Token Category)) : List Category :=
  ts.filterMap fun t => if t.isError then parenOf? t.text else none

def kept? : Piece → Option Category
  | .token .openParen _ => some .openParen
  | .token .closeParen _ => some .closeParen
  | _ => none

def blamed? : Piece → Option Category
  | .fault .unclosedParen _ => some .openParen
  | .fault .strayClose _ => some .closeParen
  | _ => none

def paren? (p : Piece) : Option Category := (kept? p).or (blamed? p)

theorem parenOf?_ofList {r : List Char} (h : r ∉ markTexts) :
    parenOf? (String.ofList r) = none := by
  have hne : ∀ w : String, w.toList ∈ markTexts → String.ofList r ≠ w := by
    rintro w hw rfl
    rw [String.toList_ofList] at hw
    exact h hw
  rw [parenOf?, if_neg (hne "(" (by decide)), if_neg (hne ")" (by decide))]

section Formed

variable {p : Piece} (h : Formed p) (start : Nat)
include h

theorem Formed.parens : (p.token? start).bind (fun t => parenOf? t.text) = paren? p := by
  cases h with
  | comment hr => exact parenOf?_ofList hr
  | @word c r hc hr =>
    have hnone : paren? (.token c r) = none := by cases c <;> first | rfl | cases hc
    rw [hnone]
    exact parenOf?_ofList hr
  | unexpected hr => exact parenOf?_ofList hr
  | _ => rfl

theorem Formed.paired : (p.token? start).bind (fun t =>
    if t.category = .openParen ∨ t.category = .closeParen then some t.category else none) =
      kept? p := by
  cases h with
  | @word c => cases c <;> rfl
  | _ => rfl

theorem Formed.unpaired : (p.token? start).bind (fun t =>
    if t.isError then parenOf? t.text else none) = blamed? p := by
  cases h with
  | @word c r hc _ => cases c <;> first | rfl | cases hc
  | unexpected hr => exact parenOf?_ofList hr
  | _ => rfl

end Formed

theorem kept?_eq_some {p : Piece} {c : Category} :
    kept? p = some c ↔ category? p = some c ∧ (c = .openParen ∨ c = .closeParen) := by
  cases p with
  | token k r => cases k <;> simp [kept?] <;> rintro rfl <;> simp
  | _ => simp [kept?, category?]

theorem count_kept {c : Category} (hc : c = .openParen ∨ c = .closeParen) (ps : List Piece) :
    (ps.filterMap kept?).count c = (ps.filterMap category?).count c := by
  rw [List.count_filterMap, List.count_filterMap]
  congr 1
  funext p
  have hiff : kept? p = some c ↔ category? p = some c := by
    rw [kept?_eq_some, and_iff_left hc]
  simp only [beq_eq_decide, hiff]

theorem balanced_filterMap (f : Piece → Option Category) (ps : List Piece) :
    Balanced (ps.filterMap f) ↔
      (∀ before, before <+: ps →
        (before.filterMap f).count .closeParen ≤ (before.filterMap f).count .openParen) ∧
      (ps.filterMap f).count .closeParen = (ps.filterMap f).count .openParen := by
  apply and_congr_left'
  constructor
  · intro h before hb
    exact h _ ((List.mem_inits _ _).mpr (hb.filterMap f))
  · intro h front hfront
    obtain ⟨before, hb, rfl⟩ := List.prefix_filterMap_iff.mp ((List.mem_inits _ _).mp hfront)
    exact h before hb

theorem balanced_kept (ps : List Piece) :
    Balanced (ps.filterMap kept?) ↔ Balanced (ps.filterMap category?) := by
  simp only [balanced_filterMap, count_kept (.inl rfl), count_kept (.inr rfl)]

theorem length_of_parens {cs : List Category} (h : ∀ c ∈ cs, c = .openParen ∨ c = .closeParen) :
    cs.length = cs.count .openParen + cs.count .closeParen := by
  induction cs with
  | nil => rfl
  | cons c cs ih =>
    obtain ⟨hc, hcs⟩ := List.forall_mem_cons.mp h
    rw [List.length_cons, ih hcs, List.count_cons, List.count_cons]
    rcases hc with rfl | rfl
    · simp only [beq_self_eq_true, reduceCtorEq, beq_iff_eq, if_true, if_false]
      omega
    · simp only [beq_self_eq_true, reduceCtorEq, beq_iff_eq, if_true, if_false]
      omega

theorem paren_of_paren? {p : Piece} {c : Category} (h : paren? p = some c) :
    c = .openParen ∨ c = .closeParen := by
  rcases Option.or_eq_some_iff.mp h with hkept | ⟨-, hblamed⟩
  · exact (kept?_eq_some.mp hkept).2
  · unfold blamed? at hblamed
    split at hblamed <;> simp_all

theorem blamed?_of_kept? {p : Piece} {c : Category} (h : kept? p = some c) :
    blamed? p = none := by
  obtain ⟨hc, -⟩ := kept?_eq_some.mp h
  obtain ⟨run, rfl⟩ := category?_eq_some.mp hc
  rfl

theorem parens_perm (ps : List Piece) :
    (ps.filterMap paren?).Perm (ps.filterMap kept? ++ ps.filterMap blamed?) := by
  induction ps with
  | nil => exact .refl _
  | cons p ps ih =>
    rw [List.filterMap_cons, List.filterMap_cons, List.filterMap_cons, paren?]
    cases hkept : kept? p with
    | some c =>
      rw [blamed?_of_kept? hkept]
      exact ih.cons c
    | none =>
      cases blamed? p with
      | none => exact ih
      | some c => exact (ih.cons c).trans List.perm_middle.symm

theorem length_kept (ps : List Piece) :
    (ps.filterMap kept?).length = opens ps + closes ps := by
  rw [length_of_parens, count_kept (.inl rfl), count_kept (.inr rfl)]
  · rfl
  · intro c hc
    obtain ⟨p, -, hp⟩ := List.mem_filterMap.mp hc
    exact (kept?_eq_some.mp hp).2

theorem count_parens {c : Category} (hc : c = .openParen ∨ c = .closeParen) (ps : List Piece) :
    (ps.filterMap paren?).count c =
      (ps.filterMap category?).count c + (ps.filterMap blamed?).count c := by
  rw [(parens_perm ps).count_eq, List.count_append, count_kept hc]

theorem kept_sublist (ps : List Piece) :
    (ps.filterMap kept?).Sublist (ps.filterMap paren?) := by
  induction ps with
  | nil => exact .refl _
  | cons p ps ih =>
    rw [List.filterMap_cons, List.filterMap_cons, paren?]
    cases kept? p with
    | some c => exact ih.cons_cons c
    | none =>
      cases blamed? p with
      | none => exact ih
      | some c => exact ih.cons c

theorem markStrayCloses_within {depth : Nat} {ps before : List Piece}
    (h : before <+: markStrayCloses depth ps) : closes before ≤ depth + opens before := by
  induction ps generalizing depth before with
  | nil =>
    rw [List.prefix_nil.mp h]
    exact Nat.zero_le _
  | cons p ps ih =>
    obtain ⟨q, left, hmark, hleft, -⟩ := markStrayCloses_cons depth p ps
    rw [hmark] at h
    rcases List.prefix_cons_iff.mp h with rfl | ⟨rest, rfl, hrest⟩
    · exact Nat.zero_le _
    · have := ih hrest
      rw [opens_cons, closes_cons]
      omega

/-- Up to the last closing parenthesis in error all are paired or in error, and no opening one is
left. -/
theorem markStrayCloses_divides {ps : List Piece} (hps : ∀ p ∈ ps, blamed? p = none)
    (depth : Nat) : ∃ before after k, markStrayCloses depth ps = before ++ after ∧
      (before = [] ∨ closes before = depth + opens before) ∧
      before.filterMap blamed? = List.replicate k .closeParen ∧ after.filterMap blamed? = [] := by
  induction ps generalizing depth with
  | nil => exact ⟨[], [], 0, rfl, .inl rfl, rfl, rfl⟩
  | cons p ps ih =>
    obtain ⟨hp, hps⟩ := List.forall_mem_cons.mp hps
    obtain ⟨q, left, hmark, hleft, hq⟩ := markStrayCloses_cons depth p ps
    obtain ⟨before, after, k, hsplit, hclosed, hbefore, hafter⟩ := ih hps left
    rw [hmark, hsplit]
    rcases hq with rfl | ⟨rfl, run, -, rfl⟩
    · rcases hclosed with rfl | hclosed
      · exact ⟨[], q :: after, 0, rfl, .inl rfl, rfl, by rw [List.filterMap_cons_none hp, hafter]⟩
      · refine ⟨q :: before, after, k, rfl, .inr ?_, ?_, hafter⟩
        · rw [opens_cons, closes_cons]
          omega
        · rw [List.filterMap_cons_none hp, hbefore]
    · refine ⟨.fault .strayClose run :: before, after, k + 1, rfl, .inr ?_, ?_, hafter⟩
      · rw [opens_cons, closes_cons]
        rcases hclosed with rfl | hclosed
        · rfl
        · have hzero : left + 0 = 0 + 0 := hleft
          omega
      · rw [List.replicate_succ, ← hbefore]
        rfl

theorem count_markUnclosed (ps : List Piece) :
    (markUnclosed ps).1 + opens (markUnclosed ps).2 = closes (markUnclosed ps).2 := by
  induction ps with
  | nil => rfl
  | cons p ps ih =>
    obtain ⟨q, free, hmark, hfree, -⟩ := markUnclosed_cons p ps
    rw [hmark, opens_cons, closes_cons]
    omega

theorem markUnclosed_within {ps after : List Piece} (h : after <:+ (markUnclosed ps).2) :
    opens after ≤ closes after := by
  induction ps with
  | nil =>
    rw [List.suffix_nil.mp h]
    exact Nat.zero_le _
  | cons p ps ih =>
    have hall := count_markUnclosed (p :: ps)
    obtain ⟨q, free, hmark, -⟩ := markUnclosed_cons p ps
    rw [hmark] at h hall
    rcases List.suffix_cons_iff.mp h with rfl | hsuffix
    · exact Nat.le.intro ((Nat.add_comm _ _).trans hall)
    · exact ih hsuffix

theorem free_le {depth : Nat} {ps : List Piece}
    (h : ∀ before, before <+: ps → closes before ≤ depth + opens before) :
    (markUnclosed ps).1 ≤ depth := by
  induction ps generalizing depth with
  | nil => exact Nat.zero_le _
  | cons p ps ih =>
    have hp := h [p] ⟨ps, rfl⟩
    obtain ⟨q, free, hmark, hfree, rfl | ⟨rfl, -⟩⟩ := markUnclosed_cons p ps
    · have hle : (markUnclosed ps).1 ≤ depth + opens [q] - closes [q] := by
        apply ih
        intro before hb
        have := h (q :: before) (List.cons_prefix_cons.mpr ⟨rfl, hb⟩)
        rw [opens_cons, closes_cons] at this
        omega
      rw [hmark]
      omega
    · rw [hmark]
      exact Nat.zero_le _

theorem blamed_markUnclosed {ps : List Piece} (h : ∀ p ∈ ps, blamed? p = none) :
    ∃ m, (markUnclosed ps).2.filterMap blamed? = List.replicate m .openParen := by
  induction ps with
  | nil => exact ⟨0, rfl⟩
  | cons p ps ih =>
    obtain ⟨hp, hps⟩ := List.forall_mem_cons.mp h
    obtain ⟨m, hm⟩ := ih hps
    obtain ⟨q, free, hmark, -, rfl | ⟨-, -, run, -, rfl⟩⟩ := markUnclosed_cons p ps
    · refine ⟨m, ?_⟩
      rw [hmark, List.filterMap_cons_none hp, hm]
    · refine ⟨m + 1, ?_⟩
      rw [hmark, List.replicate_succ, ← hm]
      rfl

theorem Steps.unblamed {operandNext : Bool} {s : List Char} {step : Step}
    (h : Steps operandNext s step) : blamed? step.piece = none := by
  cases h with
  | gap hgap =>
    rcases Lexis.gap?_cases hgap with ⟨rfl, _, _⟩ | ⟨r, rfl, _⟩
    · rfl
    · rfl
  | _ => rfl

theorem blamed?_of_mem_scan {operandNext : Bool} {s : List Char} :
    ∀ p ∈ scan operandNext s, blamed? p = none := by
  intro p hp
  obtain ⟨before, after, hsplit⟩ := List.append_of_mem hp
  exact (steps_of_step? (step?_of_scan hsplit)).unblamed

/-- The text with its parentheses divided at the last closing one in error. -/
structure Divided (s : List Char) (before after : List Piece) : Prop where
  pieces : pieces s = before ++ after
  closed : closes before = opens before
  opened : closes after = opens after
  within : ∀ front, front <+: before ++ after → closes front ≤ opens front
  blamed_before : ∃ k, before.filterMap blamed? = List.replicate k .closeParen
  blamed_after : ∃ m, after.filterMap blamed? = List.replicate m .openParen

theorem exists_divided (s : List Char) : ∃ before after, Divided s before after := by
  have hscan : ∀ p ∈ scan true s, blamed? p = none := blamed?_of_mem_scan
  obtain ⟨before, after, k, hsplit, hclosed, hbefore, hafter⟩ := markStrayCloses_divides hscan 0
  have hstray : ∀ front, front <+: before ++ after → closes front ≤ 0 + opens front := by
    intro front hfront
    rw [← hsplit] at hfront
    exact markStrayCloses_within hfront
  have hbalance : closes before = opens before := by
    rcases hclosed with rfl | hclosed
    · rfl
    · omega
  -- Each suffix of the front is what a prefix of it leaves of as many of one kind as of the other.
  have hfront : ∀ rest, rest <:+ before → opens rest ≤ closes rest := by
    rintro rest ⟨front, rfl⟩
    have := hstray front (by rw [List.append_assoc]; exact List.prefix_append _ _)
    rw [opens_append, closes_append] at hbalance
    omega
  have hmarked := markUnclosed_append hfront after
  have hfree := free_le hstray
  have htotal := count_markUnclosed (before ++ after)
  rw [hmarked] at hfree htotal
  rw [opens_append, closes_append] at htotal
  have hpieces : pieces s = before ++ (markUnclosed after).2 := by
    rw [pieces, hsplit, hmarked]
  refine ⟨before, (markUnclosed after).2, hpieces, hbalance, by omega, ?_, ⟨k, hbefore⟩,
    blamed_markUnclosed (List.filterMap_eq_nil_iff.mp hafter)⟩
  rintro front ⟨rest, hrest⟩
  have hsuffix : rest <:+ (markUnclosed (before ++ after)).2 := by
    rw [hmarked, ← hrest]
    exact List.suffix_append _ _
  have hle := markUnclosed_within hsuffix
  have hopens := congrArg opens hrest
  have hcloses := congrArg closes hrest
  rw [opens_append, opens_append] at hopens
  rw [closes_append, closes_append] at hcloses
  omega

/-- What is balanced keeps of the front no more than twice its opening parentheses, and of the rest
no more than twice its closing ones. -/
theorem length_le_of_balanced {rest before after : List Category}
    (hparen : ∀ c ∈ before ++ after, c = .openParen ∨ c = .closeParen)
    (hsub : rest.Sublist (before ++ after)) (h : Balanced rest) :
    rest.length ≤ 2 * before.count .openParen + 2 * after.count .closeParen := by
  obtain ⟨front, back, rfl, hfront, hback⟩ := List.sublist_append_iff.mp hsub
  have hprefix := h.1 front ((List.mem_inits _ _).mpr (List.prefix_append _ _))
  have htotal := h.2
  rw [List.count_append, List.count_append] at htotal
  have hopens := hfront.count_le .openParen
  have hcloses := hback.count_le .closeParen
  have hlength := length_of_parens fun c hc => hparen c (hsub.subset hc)
  rw [List.count_append, List.count_append] at hlength
  omega

theorem Divided.balanced {s : List Char} {before after : List Piece} (h : Divided s before after) :
    Balanced ((before ++ after).filterMap kept?) := by
  rw [balanced_kept, balanced_filterMap]
  refine ⟨h.within, ?_⟩
  change closes _ = opens _
  rw [opens_append, closes_append, h.closed, h.opened]

/-- Pairing finds nothing wrong where the parentheses are balanced, and nowhere else. -/
theorem pieces_eq_scan_iff (s : List Char) :
    pieces s = scan true s ↔ Balanced ((scan true s).filterMap kept?) := by
  constructor
  · intro h
    obtain ⟨before, after, hdivided⟩ := exists_divided s
    have hbalanced := hdivided.balanced
    rwa [← hdivided.pieces, h] at hbalanced
  · intro h
    exact pieces_of_balanced ((balanced_kept _).mp h)

theorem Divided.length_le {s : List Char} {before after : List Piece} (h : Divided s before after)
    {rest : List Category} (hsub : rest.Sublist ((before ++ after).filterMap paren?))
    (hrest : Balanced rest) : rest.length ≤ ((before ++ after).filterMap kept?).length := by
  have hle : rest.length ≤ 2 * (before.filterMap paren?).count .openParen +
      2 * (after.filterMap paren?).count .closeParen := by
    rw [List.filterMap_append] at hsub
    apply length_le_of_balanced _ hsub hrest
    rw [← List.filterMap_append]
    intro c hc
    obtain ⟨p, -, hp⟩ := List.mem_filterMap.mp hc
    exact paren_of_paren? hp
  obtain ⟨k, hk⟩ := h.blamed_before
  obtain ⟨m, hm⟩ := h.blamed_after
  have hopens : (before.filterMap paren?).count .openParen = opens before := by
    rw [count_parens (.inl rfl), hk, List.count_replicate]
    rfl
  have hcloses : (after.filterMap paren?).count .closeParen = closes after := by
    rw [count_parens (.inr rfl), hm, List.count_replicate]
    rfl
  have hclosed := h.closed
  have hopened := h.opened
  rw [length_kept, opens_append, closes_append]
  omega

/-- In every text the parentheses that keep their category are balanced; those in error are closing
ones and then opening ones, and they are as few as one has to remove for the rest to be balanced. -/
theorem unpaired_least (text : String) :
    Balanced (paired (tokens text).toList) ∧
      (∃ k m, unpaired (tokens text).toList =
        List.replicate k .closeParen ++ List.replicate m .openParen) ∧
      IsLeast {n | ∃ rest, rest.Sublist (parens (tokens text).toList) ∧ Balanced rest ∧
        rest.length + n = (parens (tokens text).toList).length}
        (unpaired (tokens text).toList).length := by
  obtain ⟨before, after, h⟩ := exists_divided text.toList
  have hformed : ∀ p ∈ before ++ after, Formed p := by
    rw [← h.pieces]
    exact fun p => formed_of_mem
  have htokens : (tokens text).toList = Lexis.layOut 0 (before ++ after) := by
    rw [tokens, List.toList_toArray, h.pieces]
  have hpaired : paired (tokens text).toList = (before ++ after).filterMap kept? := by
    rw [htokens]
    exact Lexis.filterMap_layOut (fun p hp => (hformed p hp).paired) 0
  have hunpaired : unpaired (tokens text).toList = (before ++ after).filterMap blamed? := by
    rw [htokens]
    exact Lexis.filterMap_layOut (fun p hp => (hformed p hp).unpaired) 0
  have hparens : parens (tokens text).toList = (before ++ after).filterMap paren? := by
    rw [htokens]
    exact Lexis.filterMap_layOut (fun p hp => (hformed p hp).parens) 0
  obtain ⟨k, hk⟩ := h.blamed_before
  obtain ⟨m, hm⟩ := h.blamed_after
  rw [hpaired, hunpaired, hparens]
  have hlength := (parens_perm (before ++ after)).length_eq
  rw [List.length_append] at hlength
  refine ⟨h.balanced, ⟨k, m, by rw [List.filterMap_append, hk, hm]⟩, ?_, ?_⟩
  · exact ⟨_, kept_sublist _, h.balanced, hlength.symm⟩
  · rintro n ⟨rest, hsub, hbalanced, hn⟩
    have := h.length_le hsub hbalanced
    omega

example : paired (tokens "(a)) /* ( */ ((b)").toList =
      [.openParen, .closeParen, .openParen, .closeParen] ∧
    unpaired (tokens "(a)) /* ( */ ((b)").toList = [.closeParen, .openParen] := by
  decide +kernel

end GraphScribe.Condition
