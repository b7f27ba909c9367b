import GraphScribe.Proofs.Condition.Parentheses
import GraphScribe.Proofs.Condition.Signs
import GraphScribe.Proofs.Condition.Tail

/-! # A character that is wrong

One `#` put between two tokens of a text without errors is one error and takes no other token with
it, but after it the reader looks for an operand. A minus sign that subtracts a number right after
it is then taken for the sign of that number; nothing else is read in another way. -/
namespace GraphScribe.Condition

open Text (byteLength)

def lexemes (text : String) : List Lexeme :=
  (tokens text).toList.map fun t => (t.category, t.text)

/-- Comments aside the tokens begin with a minus sign that a digit comes right after. -/
def Subtracts (text : String) (ts : List (Token Category)) : Prop :=
  ∃ u ∈ (ts.filter (·.category ≠ .comment)).head?,
    u.category = .operator ∧ u.text = "-" ∧ DigitNext text u

def MinusFirst : List Piece → Prop
  | .blank _ :: ps => MinusFirst ps
  | .token c r :: ps =>
    if c = .comment then MinusFirst ps
    else c = .operator ∧ r = ['-'] ∧ ∃ d, (Lexis.Piece.text ps).head? = some d ∧ d.isDigit = true
  | _ => False

/-- After some comments the second list has one signed number for a minus sign and a number. -/
inductive Rejoined : List Lexeme → List Lexeme → Prop where
  | minus (ds : String) (ls : List Lexeme) :
      Rejoined ((.operator, "-") :: (.number, ds) :: ls) ((.number, "-" ++ ds) :: ls)
  | comment {ls ms : List Lexeme} (w : String) : Rejoined ls ms →
      Rejoined ((.comment, w) :: ls) ((.comment, w) :: ms)

theorem step?_of_isGap {operandNext after : Bool} {s t : List Char} {p : Piece}
    (h : step? operandNext s = some ⟨p, after, t⟩) (hp : p.IsGap) (operandNext' : Bool) :
    step? operandNext' s = some ⟨p, operandNext', t⟩ := by
  cases steps_of_step? h with
  | gap hgap => rw [step?, hgap]
  | word _ hword =>
    have hcomment : _ = Category.comment := hp
    rw [hcomment] at hword
    cases isWord_of_readAny? hword
  | _ => cases hp

theorem scan_minus {s : List Char} {d : Char} (hhead : s.head? = some d)
    (hd : d.isDigit = true) : ∃ ds rest, scan true s = .token .number ds :: scan false rest ∧
      scan true ('-' :: s) = .token .number ('-' :: ds) :: scan false rest := by
  obtain ⟨t, rfl⟩ := List.head?_eq_some_iff.mp hhead
  have hsplit : (d :: t).takeWhile Char.isDigit ++ (d :: t).dropWhile Char.isDigit = d :: t :=
    List.takeWhile_append_dropWhile
  have hne : (d :: t).takeWhile Char.isDigit ≠ [] := by simp [hd]
  have hds : ∀ e ∈ (d :: t).takeWhile Char.isDigit, e.isDigit = true :=
    fun e he => List.all_eq_true.mp List.all_takeWhile e he
  have hends : ∀ r, Ends true .number r ((d :: t).dropWhile Char.isDigit) := by
    intro r e he hdigit
    have hnot := List.head?_dropWhile_not Char.isDigit (d :: t)
    rw [he] at hnot
    exact Bool.eq_false_iff.mp hnot hdigit
  have hplain := step?_number hne hds (hends _)
  have hsigned := step?_signed hne hds (hends _)
  rw [List.cons_append] at hsigned
  rw [hsplit] at hplain hsigned
  exact ⟨_, _, scan_of_step? hplain, scan_of_step? hsigned⟩

theorem rejoined_minus {s : List Char} {d : Char} (hhead : s.head? = some d)
    (hd : d.isDigit = true) :
    Rejoined ((.operator, "-") :: scanned true s) (scanned true ('-' :: s)) := by
  obtain ⟨ds, rest, hplain, hsigned⟩ := scan_minus hhead hd
  have hfirst : scanned true s = (.number, String.ofList ds) :: scanned false rest := by
    rw [scanned, hplain]
    rfl
  have hjoined : scanned true ('-' :: s) =
      (.number, "-" ++ String.ofList ds) :: scanned false rest := by
    rw [scanned, hsigned, List.filterMap_cons, lexemeOf?, String.ofList_cons]
    rfl
  rw [hfirst, hjoined]
  exact .minus _ _

theorem step?_true {operandNext : Bool} {s run : List Char} {c : Category} {ps : List Piece}
    (h : ReadsClean operandNext s) (hscan : scan operandNext s = .token c run :: ps)
    (hc : c ≠ .comment) (hnot : ¬MinusFirst (.token c run :: ps)) :
    step? true s =
      some ⟨.token c run, operandPast operandNext (.token c run), Lexis.Piece.text ps⟩ := by
  have hstep := (step?_of_scan_cons hscan).1
  have happ : run ++ Lexis.Piece.text ps = s := (reads_step hstep).append
  rw [MinusFirst, if_neg hc] at hnot
  have hends : Ends true c run (Lexis.Piece.text ps) := by
    intro d hd hextends
    apply (steps_of_step? hstep).ends d hd
    cases c with
    | operator =>
      rcases hextends with hlong | ⟨rfl, -, hdigit⟩
      · exact .inl hlong
      · exact absurd ⟨rfl, rfl, d, hd, hdigit⟩ hnot
    | _ => exact hextends
  have htrue := step?_again h hscan hc (fun _ => rfl) hends
  have hpast : operandAfter true c run = operandPast operandNext (.token c run) := by
    cases c with
    | comment => exact absurd rfl hc
    | _ => rfl
  rw [happ, hpast] at htrue
  exact htrue

/-- Where an operand comes next or not, the same is read but for the sign of a number. -/
theorem scanned_true {operandNext : Bool} {s : List Char} {ps : List Piece}
    (h : ReadsClean operandNext s) (hscan : scan operandNext s = ps) :
    (¬MinusFirst ps → scanned true s = scanned operandNext s) ∧
      (MinusFirst ps → Rejoined (scanned operandNext s) (scanned true s)) := by
  induction ps generalizing s with
  | nil =>
    have htext := text_scan operandNext s
    rw [hscan] at htext
    refine ⟨fun _ => ?_, False.elim⟩
    rw [← htext, Lexis.Piece.text_nil, scanned, scanned, scan_nil, scan_nil]
  | cons p ps ih =>
    obtain ⟨hp, hps⟩ := h.cons hscan
    obtain ⟨hstep, hrest⟩ := step?_of_scan_cons hscan
    cases p with
    | blank run =>
      rw [scanned_of_step? hstep, scanned_of_step? (step?_of_isGap hstep trivial true)]
      exact ih hps hrest
    | fault f run => exact absurd rfl (hp f run)
    | token c run =>
      by_cases hc : c = .comment
      · subst hc
        obtain ⟨hsame, hrejoined⟩ := ih hps hrest
        rw [scanned_of_step? hstep, scanned_of_step? (step?_of_isGap hstep rfl true)]
        exact ⟨fun hnot => congrArg _ (hsame hnot), fun hminus => .comment _ (hrejoined hminus)⟩
      · constructor
        · intro hnot
          rw [scanned_of_step? hstep, scanned_of_step? (step?_true h hscan hc hnot)]
        · intro hminus
          rw [MinusFirst, if_neg hc] at hminus
          obtain ⟨rfl, rfl, d, hhead, hd⟩ := hminus
          have happ : '-' :: Lexis.Piece.text ps = s := (reads_step hstep).append
          rw [scanned_of_step? hstep, ← happ]
          exact rejoined_minus hhead hd

theorem lexemes_eq (text : String) :
    lexemes text = (pieces text.toList).filterMap lexemeOf? := by
  rw [lexemes, tokens, List.toList_toArray, ← List.filterMap_eq_map]
  apply Lexis.filterMap_layOut
  intro p _ start
  cases p with
  | blank => rfl
  | token c r => rfl
  | fault f r => rfl

theorem kept?_of_lexemeOf? (p : Piece) : kept? p = (lexemeOf? p).bind fun l =>
    if l.1 = .openParen ∨ l.1 = .closeParen then some l.1 else none := by
  cases p with
  | token c r => cases c <;> rfl
  | _ => rfl

def pairsOf (ls : List Lexeme) : List Category :=
  ls.filterMap fun l => if l.1 = .openParen ∨ l.1 = .closeParen then some l.1 else none

theorem pairsOf_scanned (operandNext : Bool) (s : List Char) :
    pairsOf (scanned operandNext s) = (scan operandNext s).filterMap kept? := by
  rw [pairsOf, scanned, List.filterMap_filterMap]
  congr 1
  funext p
  exact (kept?_of_lexemeOf? p).symm

theorem lexemes_of_pairs {text : String}
    (h : Balanced (pairsOf (scanned true text.toList))) :
    lexemes text = scanned true text.toList := by
  rw [pairsOf_scanned, ← pieces_eq_scan_iff] at h
  rw [lexemes_eq, h]
  rfl

theorem filter_of_no_errors {ls : List Lexeme} (h : ∀ l ∈ ls, l.1 ≠ .error) :
    ls.filter (·.1 = .error) = [] ∧ ls.filter (·.1 ≠ .error) = ls := by
  constructor
  · simpa using h
  · simpa using h

section Rejoined

variable {ls ms : List Lexeme} (h : Rejoined ls ms)
include h

theorem Rejoined.pairsOf : pairsOf ms = pairsOf ls := by
  induction h with
  | minus ds ls => rfl
  | comment w _ ih => exact ih

theorem Rejoined.no_errors (hls : ∀ l ∈ ls, l.1 ≠ .error) : ∀ m ∈ ms, m.1 ≠ .error := by
  induction h with
  | minus ds ls =>
    obtain ⟨-, hrest⟩ := List.forall_mem_cons.mp hls
    obtain ⟨-, hrest⟩ := List.forall_mem_cons.mp hrest
    exact List.forall_mem_cons.mpr ⟨by simp, hrest⟩
  | comment w _ ih =>
    obtain ⟨hw, hrest⟩ := List.forall_mem_cons.mp hls
    exact List.forall_mem_cons.mpr ⟨hw, ih hrest⟩

theorem Rejoined.length : ms.length + 1 = ls.length := by
  induction h with
  | minus ds ls => rfl
  | comment w _ ih => exact congrArg (· + 1) ih

end Rejoined

theorem subtracts_layOut {text : String} {before ps : List Piece}
    (htext : Lexis.Piece.text (before ++ ps) = text.toList) :
    Subtracts text (Lexis.layOut (0 + byteLength (Lexis.Piece.text before)) ps) ↔
      MinusFirst ps := by
  induction ps generalizing before with
  | nil =>
    constructor
    · rintro ⟨u, hu, -⟩
      cases hu
    · exact False.elim
  | cons p ps ih =>
    have hmore : byteLength (Lexis.Piece.text (before ++ [p])) =
        byteLength (Lexis.Piece.text before) + byteLength p.run := by
      rw [Lexis.Piece.text_append, Text.byteLength_append]
      simp
    have ih := @ih (before ++ [p]) (by rw [List.append_assoc]; exact htext)
    rw [hmore, ← Nat.add_assoc] at ih
    cases p with
    | blank run => exact ih
    | fault f run =>
      constructor
      · rintro ⟨u, hu, hc, -⟩
        cases hu
        cases hc
      · exact False.elim
    | token c run =>
      rw [MinusFirst]
      by_cases hc : c = .comment
      · subst hc
        rw [if_pos rfl]
        exact ih
      · rw [if_neg hc]
        have hdigit := digitNext_iff htext rfl
        have htextOf : String.ofList run = "-" ↔ run = ['-'] :=
          ⟨fun h => by rw [← String.toList_ofList (l := run), h]; rfl, fun h => by rw [h]⟩
        rw [← hdigit, ← htextOf]
        constructor
        · rintro ⟨u, hu, hminus⟩
          rw [Lexis.layOut, List.filter_cons_of_pos (by simpa [Token.ofRun] using hc)] at hu
          cases hu
          exact hminus
        · intro hminus
          rw [Lexis.layOut, Subtracts, List.filter_cons_of_pos (by simpa [Token.ofRun] using hc)]
          exact ⟨_, rfl, hminus⟩

theorem step?_hash (operandNext : Bool) (t : List Char) :
    step? operandNext ('#' :: t) = some ⟨.fault .unexpected ['#'], true, t⟩ := by
  have hgap : Lexis.gap? (κ := Category) (φ := Fault) ('#' :: t) = none :=
    Lexis.gap?_eq_none (by decide) (by decide)
  have hcomment : read? .commentClose ('#' :: t) = none := read?_commentClose_none (by simp)
  have hopen : read? .openParen ('#' :: t) = none := read?_paren_none rfl (by decide) t
  have hclose : read? .closeParen ('#' :: t) = none := read?_paren_none rfl (by decide) t
  have hname : Lexis.readName ('#' :: t) = none := Lexis.readName_eq_none (by decide)
  have hkeyword : read? .keyword ('#' :: t) = none := read?_keyword_of_readName_none hname
  have hnumber : read? .number ('#' :: t) = none := read?_number_none (by decide) (by simp)
  have hquotation : read? .quotedString ('#' :: t) = none := read?_quotedString_none (by decide)
  have hoperator : read? .operator ('#' :: t) = none := by
    apply Lexis.read?_symbol_none rfl
    intro w hw hprefix
    have hheads : ∀ w ∈ operators, w.toList.head? ≠ some '#' := by decide
    obtain ⟨a, r, hlist⟩ := List.exists_cons_of_ne_nil (operators_ne_nil w hw)
    rw [hlist] at hprefix
    obtain ⟨rfl, -⟩ := List.cons_prefix_cons.mp hprefix
    exact hheads w hw (by rw [hlist]; rfl)
  have hlexeme : lexeme? operandNext ('#' :: t) = none := by
    simp [lexeme?, hcomment, hopen, hclose, readAny?_isWord, hkeyword, hnumber, hquotation,
      read?_identifier, hname, hoperator]
  simp [step?, hgap, hlexeme, Lexis.readStray, hname]

theorem scanned_hash (operandNext : Bool) (s : List Char) :
    scanned operandNext (" # ".toList ++ s) = (.error, "#") :: scanned true s := by
  have hblank : ∀ c ∈ [' '], Text.isBlank c = true := List.forall_mem_singleton.mpr (by decide)
  have hfirst := scanned_blanks hblank operandNext ('#' :: ([' '] ++ s))
  rw [scanned_of_step? (step?_hash operandNext _)] at hfirst
  exact hfirst.trans (congrArg _ (scanned_blanks hblank true s))

theorem Parted.pairsOf_rest {a b : String} {ts : List (Token Category)} {before after : List Piece}
    (h : Parted a b ts before after) : pairsOf (scanned true b.toList) =
      pairsOf (scanned (before.foldl operandPast true) b.toList) := by
  obtain ⟨hsame, hrejoined⟩ := scanned_true h.clean_rest h.scan_rest
  by_cases hminus : MinusFirst after
  · exact (hrejoined hminus).pairsOf
  · rw [hsame hminus]

/-- The wrong character between the lexemes before it, as they were, and those after it, read as if
an operand came next. -/
theorem Parted.lexemes_with {a b : String} {ts : List (Token Category)} {before after : List Piece}
    (h : Parted a b ts before after) (hclean : Tokens.hasErrors (tokens (a ++ b)) = false) :
    lexemes (a ++ " # " ++ b) =
      before.filterMap lexemeOf? ++ (.error, "#") :: scanned true b.toList := by
  have hnew : scanned true (a ++ " # " ++ b).toList =
      before.filterMap lexemeOf? ++ (.error, "#") :: scanned true b.toList := by
    rw [h.scanned_with (c := ' ') rfl (by decide), scanned_hash]
  have hpairs : pairsOf (scanned true (a ++ " # " ++ b).toList) =
      pairsOf (scanned true (a ++ b).toList) := by
    rw [hnew, h.scanned_eq, pairsOf, pairsOf, List.filterMap_append, List.filterMap_append]
    exact congrArg _ h.pairsOf_rest
  rw [← hnew]
  apply lexemes_of_pairs
  rw [hpairs, pairsOf_scanned, ← pieces_eq_scan_iff]
  exact (scan_of_no_errors hclean).1

/-- Where `#` is put between two tokens of a text without errors, it is the one token in error. The
others are those of the text if and only if no minus sign subtracts next that has a digit right
after it. -/
theorem hash_insert_iff (a b : String) (hclean : Tokens.hasErrors (tokens (a ++ b)) = false)
    (before after : List (Token Category)) (t : Token Category)
    (htokens : (tokens (a ++ b)).toList = before ++ t :: after)
    (hstart : t.start = byteLength a.toList) :
    (lexemes (a ++ " # " ++ b)).filter (·.1 = .error) = [(.error, "#")] ∧
      ((lexemes (a ++ " # " ++ b)).filter (·.1 ≠ .error) = lexemes (a ++ b) ↔
        ¬Subtracts (a ++ b) (t :: after)) := by
  obtain ⟨ps, qs, hparted⟩ := exists_parted hclean htokens hstart
  have hsubtracts : Subtracts (a ++ b) (t :: after) ↔ MinusFirst qs := by
    rw [← hparted.laid]
    apply subtracts_layOut
    rw [← hparted.split, text_scan]
  have hold : lexemes (a ++ b) = ps.filterMap lexemeOf? ++
      scanned (ps.foldl operandPast true) b.toList := by
    rw [lexemes_eq, (scan_of_no_errors hclean).1, ← hparted.scanned_eq]
    rfl
  have hno : ∀ l ∈ lexemes (a ++ b), l.1 ≠ .error := by
    intro l hl
    obtain ⟨u, hu, rfl⟩ := List.mem_map.mp hl
    rw [Tokens.hasErrors, Array.any_eq_false'] at hclean
    intro herror
    exact hclean u (Array.mem_toList_iff.mp hu) (decide_eq_true herror)
  rw [hold] at hno
  have hfront : ∀ l ∈ ps.filterMap lexemeOf?, l.1 ≠ .error :=
    fun l hl => hno l (List.mem_append_left _ hl)
  obtain ⟨hsame, hrejoined⟩ := scanned_true hparted.clean_rest hparted.scan_rest
  have hrest : ∀ l ∈ scanned true b.toList, l.1 ≠ .error := by
    have hback := fun l hl => hno l (List.mem_append_right _ hl)
    by_cases hminus : MinusFirst qs
    · exact (hrejoined hminus).no_errors hback
    · rwa [hsame hminus]
  obtain ⟨hnone, hall⟩ := filter_of_no_errors hfront
  obtain ⟨hnone', hall'⟩ := filter_of_no_errors hrest
  rw [hparted.lexemes_with hclean, hsubtracts, hold, List.filter_append, List.filter_append]
  constructor
  · rw [hnone, List.filter_cons_of_pos rfl, hnone']
    rfl
  · rw [hall, List.filter_cons_of_neg (by decide), hall', List.append_right_inj]
    constructor
    · intro heq hminus
      have hlength := (hrejoined hminus).length
      rw [heq] at hlength
      omega
    · exact hsame

/-- A comment after the wrong character does not keep the minus sign from its number. -/
theorem hash_insert_before_comment :
    (lexemes ("not (x) " ++ " # " ++ "/* y */ -3")).filter (·.1 = .error) = [(.error, "#")] ∧
      (lexemes ("not (x) " ++ " # " ++ "/* y */ -3")).filter (·.1 ≠ .error) ≠
        lexemes ("not (x) " ++ "/* y */ -3") := by
  have hclean : Tokens.hasErrors (tokens ("not (x) " ++ "/* y */ -3")) = false := by
    decide +kernel
  have htokens : (tokens ("not (x) " ++ "/* y */ -3")).toList =
      (tokens ("not (x) " ++ "/* y */ -3")).toList.take 4 ++
        Token.ofRun .comment 8 "/* y */".toList none ::
          [Token.ofRun .operator 16 ['-'] none, Token.ofRun .number 17 ['3'] none] := by
    decide +kernel
  have hsubtracts : Subtracts ("not (x) " ++ "/* y */ -3")
      [Token.ofRun .comment 8 "/* y */".toList none, Token.ofRun .operator 16 ['-'] none,
        Token.ofRun .number 17 ['3'] none] :=
    ⟨Token.ofRun .operator 16 ['-'] none, by decide +kernel, rfl, by decide +kernel,
      "not (x) /* y */ -".toList, '3', [], by decide +kernel, by decide +kernel, by decide⟩
  obtain ⟨herrors, hothers⟩ := hash_insert_iff _ _ hclean _ _ _ htokens (by decide +kernel)
  exact ⟨herrors, fun heq => hothers.mp heq hsubtracts⟩

/-- A wrong character takes another token with it: the minus sign. -/
theorem hash_insert_joins :
    Tokens.hasErrors (tokens ("x " ++ "-3")) = false ∧
      (∃ t ∈ tokens ("x " ++ "-3"), t.start = byteLength "x ".toList) ∧
      lexemes ("x " ++ " # " ++ "-3") = [(.identifier, "x"), (.error, "#"), (.number, "-3")] ∧
      lexemes ("x " ++ "-3") = [(.identifier, "x"), (.operator, "-"), (.number, "3")] := by
  decide +kernel

end GraphScribe.Condition
