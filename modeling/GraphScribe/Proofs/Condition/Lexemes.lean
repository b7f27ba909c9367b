import GraphScribe.Proofs.Condition.Scan
import GraphScribe.Proofs.Lexis.Tail

/-! # Single readings of a condition text

How each kind of token is spelled, and that a token is read back as a whole where the next character
does not go on with it, whatever the patterns of the other categories would make of its text. A blank
goes on with no token. -/
namespace GraphScribe.Condition

open Lexis (NameShaped readName gap?)

def operators : List String := ["!=", ">=", "<=", "=", ",", ">", "<", "-", "+", "/", "*"]

/-- The marks that have another one at their front, or that are no operator without their end. -/
def longMarks : List (List Char) := [['!', '='], ['>', '='], ['<', '='], ['/', '*'], ['*', '/']]

theorem operators_long : ∀ w ∈ operators, w.toList.length = 1 ∨ w.toList ∈ longMarks := by decide

theorem operators_ne_nil : ∀ w ∈ operators, w.toList ≠ [] := by decide

theorem nameShaped_of_keyword : ∀ w ∈ keywords, NameShaped w.toList := by decide

theorem read?_keyword {s r t : List Char} : read? .keyword s = some (r, t) ↔
    readName s = some (r, t) ∧ String.ofList r ∈ keywords ∧ Text.wordEnds t = true :=
  Lexis.read?_word rfl nameShaped_of_keyword

theorem read?_identifier (s : List Char) : read? .identifier s = readName s := Lexis.read?_name rfl

theorem read?_number (s : List Char) : read? .number s = Lexis.readNumber s := Lexis.read?_number rfl

theorem read?_quotedString (s : List Char) : read? .quotedString s = Lexis.readQuotation s :=
  Lexis.read?_quotation rfl

theorem read?_operator (s : List Char) : read? .operator s = Lexis.readSymbol operators s :=
  Lexis.read?_symbol rfl operators_ne_nil

theorem read?_keyword_of_readName_none {s : List Char} (h : readName s = none) :
    read? .keyword s = none := by
  cases hk : read? .keyword s with
  | none => rfl
  | some cut =>
    obtain ⟨r, t⟩ := cut
    rw [(read?_keyword.mp hk).1] at h
    cases h

def Category.paren? : Category → Option Char
  | .openParen => some '('
  | .closeParen => some ')'
  | _ => none

theorem read?_paren {c : Category} {a : Char} (hc : c.paren? = some a) {s r t : List Char} :
    read? c s = some (r, t) ↔ r = [a] ∧ s = a :: t := by
  apply Lexis.read?_single
  cases c <;> cases hc <;> rfl

theorem read?_paren_none {c : Category} {a b : Char} (hc : c.paren? = some a) (hb : b ≠ a)
    (s : List Char) : read? c (b :: s) = none := by
  cases hread : read? c (b :: s) with
  | none => rfl
  | some cut =>
    obtain ⟨r, t⟩ := cut
    exact absurd (List.cons.inj ((read?_paren hc).mp hread).2).1 hb

theorem read?_commentClose {s r t : List Char} :
    read? .commentClose s = some (r, t) ↔ r = ['*', '/'] ∧ s = '*' :: '/' :: t :=
  Lexis.read?_only (w := "*/") rfl (by decide)

theorem read?_commentClose_none {a : Char} {s : List Char} (h : a = '*' → s.head? ≠ some '/') :
    read? .commentClose (a :: s) = none := by
  apply Lexis.read?_symbol_none rfl
  intro w hw hprefix
  rw [List.mem_singleton.mp hw] at hprefix
  obtain ⟨ha, u, hu⟩ := List.cons_prefix_cons.mp hprefix
  exact h ha.symm (by rw [← hu]; rfl)

theorem findSome?_cons_or {α β : Type} (f : α → Option β) (a : α) (as : List α) :
    (a :: as).findSome? f = (f a).or (as.findSome? f) := by
  rw [List.findSome?_cons]
  cases f a <;> rfl

/-- A symbol is read where no longer one begins and none that comes before it in the list begins
it. -/
theorem readSymbol_longest {choices : List String} {w : String} {t : List Char} (hw : w ∈ choices)
    (hlongest : ∀ v ∈ choices, v.toList <+: w.toList ++ t → v.toList <+: w.toList)
    (hfirst : choices.Pairwise fun v w => ¬v.toList <+: w.toList) :
    Lexis.readSymbol choices (w.toList ++ t) = some (w.toList, t) := by
  induction choices with
  | nil => cases hw
  | cons v choices ih =>
    obtain ⟨hv, hlongest⟩ := List.forall_mem_cons.mp hlongest
    obtain ⟨hhead, hfirst⟩ := List.pairwise_cons.mp hfirst
    rw [Lexis.readSymbol, findSome?_cons_or]
    by_cases hvw : w = v
    · rw [hvw, Lexis.cut?_eq_some_iff.mpr ⟨rfl, rfl⟩]
      rfl
    · have hw := (List.mem_cons.mp hw).resolve_left hvw
      have hnone : Lexis.cut? v.toList (w.toList ++ t) = none := by
        cases hcut : Lexis.cut? v.toList (w.toList ++ t) with
        | none => rfl
        | some cut =>
          obtain ⟨r, u⟩ := cut
          obtain ⟨-, hs⟩ := Lexis.cut?_eq_some_iff.mp hcut
          exact absurd (hv ⟨u, hs.symm⟩) (hhead w hw)
      rw [hnone]
      exact ih hw hlongest hfirst

theorem readAny?_isWord (signed : Bool) (s : List Char) :
    Lexicon.readAny? (isWord signed) s = ((read? .keyword s).map (Category.keyword, ·)).or
      ((if signed then (read? .number s).map (Category.number, ·) else none).or
        (((read? .quotedString s).map (Category.quotedString, ·)).or
          (((read? .identifier s).map (Category.identifier, ·)).or
            ((read? .operator s).map (Category.operator, ·))))) := by
  have hlist : Lexicon.readAny? (isWord signed) s =
      [(Category.keyword, true), (.number, signed), (.quotedString, true), (.identifier, true),
        (.operator, true)].findSome? fun e =>
          if e.2 then (read? e.1 s).map (e.1, ·) else none := by
    cases signed <;> rfl
  simp only [hlist, findSome?_cons_or, List.findSome?_nil, Option.or_none, if_true]

inductive Spelled : Category → List Char → Prop where
  | keyword {w : String} : w ∈ keywords → Spelled .keyword w.toList
  | number {ds : List Char} : ds ≠ [] → (∀ d ∈ ds, d.isDigit = true) → Spelled .number ds
  | signed {ds : List Char} : ds ≠ [] → (∀ d ∈ ds, d.isDigit = true) → Spelled .number ('-' :: ds)
  | quotedString {body : List Char} : (∀ c ∈ body, c ≠ '"' ∧ c ≠ '\n') →
      Spelled .quotedString ('"' :: (body ++ ['"']))
  | identifier {r : List Char} : NameShaped r → String.ofList r ∉ keywords → Spelled .identifier r
  | operator {w : String} : w ∈ operators → Spelled .operator w.toList
  | openParen : Spelled .openParen ['(']
  | closeParen : Spelled .closeParen [')']
  | comment {body : List Char} : ¬['*', '/'] <:+: body →
      Spelled .comment ('/' :: '*' :: (body ++ ['*', '/']))

def Signed (c : Category) (r : List Char) : Prop := c = .number ∧ r.head? = some '-'

instance (c : Category) (r : List Char) : Decidable (Signed c r) :=
  inferInstanceAs (Decidable (_ ∧ _))

def operandAfter (operandNext : Bool) (c : Category) (r : List Char) : Bool :=
  match c with
  | .comment => operandNext
  | .openParen => true
  | _ => introducesOperand c r

/-- The character after a token would be taken for a part of it, or would keep it from being read. -/
def Extends (operandNext : Bool) (c : Category) (r : List Char) (d : Char) : Prop :=
  match c with
  | .keyword => Text.isWordChar d = true
  | .identifier => Lexis.isNamePart d = true
  | .number => d.isDigit = true
  | .operator => r ++ [d] ∈ longMarks ∨ (r = ['-'] ∧ operandNext = true ∧ d.isDigit = true)
  | _ => False

/-- The text after a token does not go on with it. -/
def Ends (operandNext : Bool) (c : Category) (r t : List Char) : Prop :=
  ∀ d, t.head? = some d → ¬Extends operandNext c r d

theorem Ends.congr {operandNext : Bool} {c : Category} {r t t' : List Char}
    (h : Ends operandNext c r t) (ht : t'.head? = t.head?) : Ends operandNext c r t' := by
  intro d hd
  exact h d (ht ▸ hd)

def Apart (t : List Char) : Prop := ∀ c, t.head? = some c → Text.isBlank c = true

theorem apart_nil : Apart [] := fun _ h => by cases h

theorem apart_blank {c : Char} (h : Text.isBlank c = true) (t : List Char) : Apart (c :: t) := by
  intro d hd
  cases hd
  exact h

theorem Apart.ends {t : List Char} (h : Apart t) (operandNext : Bool) (c : Category)
    (r : List Char) : Ends operandNext c r t := by
  intro d hd hextends
  have hblank := h d hd
  have hword := Lexis.isWordChar_of_isBlank hblank
  have hpart : Lexis.isNamePart d ≠ true := by
    intro hpart
    rw [Lexis.isWordChar_of_isNamePart hpart] at hword
    cases hword
  cases c with
  | keyword =>
    rw [Extends, hword] at hextends
    cases hextends
  | identifier => exact hpart hextends
  | number => exact hpart (Lexis.isNamePart_of_isDigit hextends)
  | operator =>
    rcases hextends with hlong | ⟨-, -, hdigit⟩
    · have hmarks : longMarks.all (fun m => m.getLast?.all fun a => !Text.isBlank a) = true := by
        decide
      have hmark := List.all_eq_true.mp hmarks _ hlong
      simp [hblank] at hmark
    · exact hpart (Lexis.isNamePart_of_isDigit hdigit)
  | _ => exact hextends

section Steps

variable {t : List Char} {operandNext : Bool}

theorem gap?_slash {s : List Char} (h : s.head? ≠ some '*') :
    gap? (κ := Category) (φ := Fault) ('/' :: s) = none := by
  have hcomment : Lexis.readComment ('/' :: s) = none := by
    unfold Lexis.readComment
    split
    · rename_i heq
      cases heq
      exact absurd rfl h
    · rfl
  simp [gap?, show Text.isBlank '/' = false by decide, hcomment]

theorem step?_word {c : Category} {a : Char} {r : List Char} (hblank : Text.isBlank a = false)
    (hopen : a ≠ '(') (hclose : a ≠ ')') (hslash : a = '/' → (r ++ t).head? ≠ some '*')
    (hstar : a = '*' → (r ++ t).head? ≠ some '/')
    (hread : Lexicon.readAny? (isWord (operandNext || a != '-')) (a :: r ++ t) =
      some (c, a :: r, t)) :
    step? operandNext (a :: r ++ t) =
      some ⟨.token c (a :: r), introducesOperand c (a :: r), t⟩ := by
  rw [List.cons_append] at hread ⊢
  -- A slash and an asterisk are operators only where the next character makes no comment mark.
  have hgap : gap? (κ := Category) (φ := Fault) (a :: (r ++ t)) = none := by
    by_cases ha : a = '/'
    · subst ha
      exact gap?_slash (hslash rfl)
    · exact Lexis.gap?_eq_none hblank ha
  have hcomment := read?_commentClose_none hstar
  have hparen := read?_paren_none (c := .openParen) rfl hopen (r ++ t)
  have hclosing := read?_paren_none (c := .closeParen) rfl hclose (r ++ t)
  have hsign : (List.head? (a :: (r ++ t)) != some '-') = (a != '-') := rfl
  simp only [step?, hgap, lexeme?, hcomment, hparen, hclosing, hsign, hread, Option.map_some]

theorem step?_plain {c : Category} {a : Char} {r : List Char}
    (hplain : Lexis.isNamePart a = true ∨ a = '"')
    (hread : Lexicon.readAny? (isWord true) (a :: r ++ t) = some (c, a :: r, t)) :
    step? operandNext (a :: r ++ t) =
      some ⟨.token c (a :: r), introducesOperand c (a :: r), t⟩ := by
  have hne : ∀ b, Lexis.isNamePart b = false ∧ b ≠ '"' → a ≠ b := by
    rintro b ⟨hpart, hquote⟩ rfl
    rcases hplain with h | h
    · rw [h] at hpart
      cases hpart
    · exact hquote h
  have hblank : Text.isBlank a = false := by
    rcases hplain with h | rfl
    · exact Lexis.not_blank_of_isWordChar (Lexis.isWordChar_of_isNamePart h)
    · decide
  have hsign : (operandNext || a != '-') = true := by simp [hne '-' (by decide)]
  refine step?_word hblank (hne '(' (by decide)) (hne ')' (by decide)) ?_ ?_ ?_
  · exact fun h => absurd h (hne '/' (by decide))
  · exact fun h => absurd h (hne '*' (by decide))
  · rw [hsign]
    exact hread

end Steps

section Words

variable {s t : List Char} {a : Char}

theorem readDigits_run {operandNext : Bool} {sign ds r : List Char} (hne : ds ≠ [])
    (hds : ∀ d ∈ ds, d.isDigit = true) (ht : Ends operandNext .number r t) :
    Lexis.readDigits sign (ds ++ t) = some (sign ++ ds, t) := by
  have hend : ∀ c, t.head? = some c → c.isDigit = false :=
    fun c hc => Bool.eq_false_iff.mpr (ht c hc)
  obtain ⟨htake, hdrop⟩ := Lexis.takeWhile_run hds hend
  unfold Lexis.readDigits
  rw [htake, hdrop]
  cases ds with
  | nil => exact absurd rfl hne
  | cons d ds => rfl

theorem read?_number_none (ha : a.isDigit = false)
    (hs : a = '-' → ∀ c, s.head? = some c → c.isDigit = false) :
    read? .number (a :: s) = none :=
  (read?_number _).trans (Lexis.readNumber_none ha hs)

theorem read?_quotedString_none (ha : a ≠ '"') : read? .quotedString (a :: s) = none :=
  (read?_quotedString _).trans (Lexis.readQuotation_none ha)

theorem read?_keyword_none (ha : Lexis.isNameStart a = false) : read? .keyword (a :: s) = none :=
  read?_keyword_of_readName_none (Lexis.readName_eq_none ha)

theorem step?_keyword {operandNext : Bool} {w : String} (hw : w ∈ keywords)
    (ht : Ends operandNext .keyword w.toList t) :
    step? operandNext (w.toList ++ t) =
      some ⟨.token .keyword w.toList, introducesOperand .keyword w.toList, t⟩ := by
  have hshape := nameShaped_of_keyword w hw
  have hends : Text.wordEnds t = true := by
    cases t with
    | nil => rfl
    | cons d t => simpa [Text.wordEnds, Extends] using ht d rfl
  have hread : read? .keyword (w.toList ++ t) = some (w.toList, t) := by
    apply read?_keyword.mpr
    refine ⟨?_, by rwa [String.ofList_toList], hends⟩
    exact Lexis.readName_eq_some_iff.mpr ⟨hshape, Lexis.nameEnds_of_wordEnds hends, rfl⟩
  revert hread hshape
  cases w.toList with
  | nil => exact fun h => h.elim
  | cons a r =>
    intro hshape hread
    apply step?_plain (.inl (Lexis.isNamePart_of_isNameStart hshape.1))
    simp only [readAny?_isWord, hread]
    rfl

theorem step?_identifier {operandNext : Bool} {r : List Char} (hr : NameShaped r)
    (hkey : String.ofList r ∉ keywords) (ht : Ends operandNext .identifier r t) :
    step? operandNext (r ++ t) =
      some ⟨.token .identifier r, introducesOperand .identifier r, t⟩ := by
  have hends : Lexis.NameEnds t := fun d hd => Bool.eq_false_iff.mpr (ht d hd)
  have hname : readName (r ++ t) = some (r, t) :=
    Lexis.readName_eq_some_iff.mpr ⟨hr, hends, rfl⟩
  have hnone : read? .keyword (r ++ t) = none := by
    cases hk : read? .keyword (r ++ t) with
    | none => rfl
    | some cut =>
      obtain ⟨r', t'⟩ := cut
      obtain ⟨hname', hmem, -⟩ := read?_keyword.mp hk
      rw [hname] at hname'
      cases hname'
      exact absurd hmem hkey
  cases r with
  | nil => exact hr.elim
  | cons a r =>
    have hstart := hr.1
    have hdigit : a.isDigit = false := by
      cases hd : a.isDigit with
      | false => rfl
      | true =>
        rw [Lexis.not_isNameStart_of_isDigit hd] at hstart
        cases hstart
    have hnumber : read? .number (a :: r ++ t) = none := by
      apply read?_number_none hdigit
      rintro rfl
      cases hstart
    have hquote : read? .quotedString (a :: r ++ t) = none := by
      apply read?_quotedString_none
      rintro rfl
      cases hstart
    apply step?_plain (.inl (Lexis.isNamePart_of_isNameStart hstart))
    rw [readAny?_isWord]
    simp only [hnone, hnumber, hquote, read?_identifier, hname]
    rfl

theorem step?_number {operandNext : Bool} {ds : List Char} (hne : ds ≠ [])
    (hds : ∀ d ∈ ds, d.isDigit = true) (ht : Ends operandNext .number ds t) :
    step? operandNext (ds ++ t) =
      some ⟨.token .number ds, introducesOperand .number ds, t⟩ := by
  have hdigits : Lexis.readDigits [] (ds ++ t) = some (ds, t) := readDigits_run hne hds ht
  cases ds with
  | nil => exact absurd rfl hne
  | cons a ds =>
    have ha := hds a (by simp)
    have hnone : read? .keyword (a :: ds ++ t) = none :=
      read?_keyword_none (Lexis.not_isNameStart_of_isDigit ha)
    have hnumber : read? .number (a :: ds ++ t) = some (a :: ds, t) := by
      have hminus : a ≠ '-' := by
        rintro rfl
        cases ha
      rw [read?_number, List.cons_append, Lexis.readNumber_of_ne hminus]
      exact hdigits
    apply step?_plain (.inl (Lexis.isNamePart_of_isDigit ha))
    simp only [readAny?_isWord, hnone, hnumber]
    rfl

/-- A minus sign where an operand may follow belongs to the digits after it. -/
theorem step?_signed {ds : List Char} (hne : ds ≠ []) (hds : ∀ d ∈ ds, d.isDigit = true)
    (ht : Ends true .number ('-' :: ds) t) :
    step? true ('-' :: ds ++ t) =
      some ⟨.token .number ('-' :: ds), introducesOperand .number ('-' :: ds), t⟩ := by
  have hnone : read? .keyword ('-' :: ds ++ t) = none := read?_keyword_none (by decide)
  have hnumber : read? .number ('-' :: ds ++ t) = some ('-' :: ds, t) := by
    rw [read?_number]
    exact readDigits_run hne hds ht
  apply step?_word (by decide) (by decide) (by decide)
  · intro h
    cases h
  · intro h
    cases h
  · simp only [readAny?_isWord, hnone, hnumber]
    rfl

theorem step?_quotedString {operandNext : Bool} {body : List Char}
    (hbody : ∀ c ∈ body, c ≠ '"' ∧ c ≠ '\n') :
    step? operandNext ('"' :: (body ++ ['"']) ++ t) = some ⟨.token .quotedString
      ('"' :: (body ++ ['"'])), introducesOperand .quotedString ('"' :: (body ++ ['"'])), t⟩ := by
  have hnone : read? .keyword ('"' :: (body ++ ['"']) ++ t) = none := read?_keyword_none (by decide)
  have hnumber : read? .number ('"' :: (body ++ ['"']) ++ t) = none := by
    apply read?_number_none (by decide)
    intro h
    cases h
  have hread : read? .quotedString ('"' :: (body ++ ['"']) ++ t) =
      some ('"' :: (body ++ ['"']), t) := by
    have hrun : ∀ c ∈ body, Lexis.isQuotable c = true := by
      intro c hc
      simp [Lexis.isQuotable, hbody c hc]
    have hend : ∀ c, ('"' :: t).head? = some c → Lexis.isQuotable c = false := by
      rintro c ⟨⟩
      rfl
    obtain ⟨htake, hdrop⟩ := Lexis.takeWhile_run hrun hend
    rw [read?_quotedString]
    simp [Lexis.readQuotation, htake, hdrop]
  apply step?_plain (.inr rfl)
  simp only [readAny?_isWord, hnone, hnumber, hread]
  rfl

/-- The character begins neither a gap other than a comment nor any word but an operator. -/
def isMark (c : Char) : Bool :=
  !Text.isBlank c && !Lexis.isNameStart c && !c.isDigit && c != '"' && c != '(' && c != ')'

theorem operators_marks : operators.all (fun w => w.toList.all isMark) = true := by decide

theorem isMark_of_mem_operator {w : String} (hw : w ∈ operators) {c : Char} (hc : c ∈ w.toList) :
    isMark c = true := List.all_eq_true.mp (List.all_eq_true.mp operators_marks w hw) c hc

theorem operators_single : ∀ w ∈ operators, '/' ∈ w.toList ∨ '*' ∈ w.toList ∨ '-' ∈ w.toList →
    w.toList.length = 1 := by
  decide

theorem longest_of_ends {operandNext : Bool} {w : String} (hw : w ∈ operators)
    (ht : Ends operandNext .operator w.toList t) :
    ∀ v ∈ operators, v.toList <+: w.toList ++ t → v.toList <+: w.toList := by
  rintro v hv ⟨x, hx⟩
  rcases List.append_eq_append_iff.mp hx with ⟨u, hu, -⟩ | ⟨u, hu, htail⟩
  · rw [hu]
    exact List.prefix_append _ _
  · cases u with
    | nil => simp [hu]
    | cons d u =>
      have hlong := operators_long v hv
      have hpos := List.length_pos_iff.mpr (operators_ne_nil w hw)
      have htwo : ∀ m ∈ longMarks, m.length = 2 := by decide
      have hlength := congrArg List.length hu
      rw [List.length_append, List.length_cons] at hlength
      rcases hlong with hone | hlong
      · omega
      · have hmark := htwo _ hlong
        have hnil : u = [] := List.eq_nil_of_length_eq_zero (by omega)
        rw [hu, hnil] at hlong
        exact absurd (.inl hlong) (ht d (by rw [htail]; rfl))

theorem step?_operator {operandNext : Bool} {w : String} (hw : w ∈ operators)
    (ht : Ends operandNext .operator w.toList t) :
    step? operandNext (w.toList ++ t) =
      some ⟨.token .operator w.toList, introducesOperand .operator w.toList, t⟩ := by
  have hread := read?_operator (w.toList ++ t)
  rw [readSymbol_longest hw (longest_of_ends hw ht) (by decide)] at hread
  have hchars := fun c => @isMark_of_mem_operator w hw c
  have hsingle := operators_single w hw
  revert hread hchars hsingle ht
  cases hlist : w.toList with
  | nil => exact absurd hlist (operators_ne_nil w hw)
  | cons a r =>
    intro ht hread hchars hsingle
    have hmark := hchars a List.mem_cons_self
    simp only [isMark, Bool.and_eq_true, Bool.not_eq_true', bne_iff_ne] at hmark
    obtain ⟨⟨⟨⟨⟨hblank, hstart⟩, hdigit⟩, hquote⟩, hopen⟩, hclose⟩ := hmark
    -- These three would read differently with the next character, which is not theirs.
    have hnext : a = '/' ∨ a = '*' ∨ a = '-' → r = [] := by
      intro ha
      have hlength : (a :: r).length = 1 := by
        apply hsingle
        rcases ha with rfl | rfl | rfl <;> simp
      simpa using hlength
    have hnone : read? .keyword (a :: r ++ t) = none := read?_keyword_none hstart
    have hnumber : (operandNext || a != '-') = true → read? .number (a :: (r ++ t)) = none := by
      intro hsigned
      apply read?_number_none hdigit
      rintro rfl c hc
      obtain rfl := hnext (by simp)
      have hoperand : operandNext = true := by simpa using hsigned
      exact Bool.eq_false_iff.mpr fun hc' => ht c hc (.inr ⟨rfl, hoperand, hc'⟩)
    rw [← List.cons_append] at hnumber
    have hquotation : read? .quotedString (a :: r ++ t) = none := read?_quotedString_none hquote
    have hname : read? .identifier (a :: r ++ t) = none := by
      rw [read?_identifier]
      exact Lexis.readName_eq_none hstart
    apply step?_word hblank hopen hclose
    · rintro rfl hc
      obtain rfl := hnext (by simp)
      exact ht '*' hc (.inl (by simp [longMarks]))
    · rintro rfl hc
      obtain rfl := hnext (by simp)
      exact ht '/' hc (.inl (by simp [longMarks]))
    · cases hsigned : operandNext || a != '-' with
      | false =>
        simp only [readAny?_isWord, hnone, hquotation, hname, hread]
        rfl
      | true =>
        simp only [readAny?_isWord, hnone, hnumber hsigned, hquotation, hname,
          hread]
        rfl

theorem step?_openParen {operandNext : Bool} :
    step? operandNext ('(' :: t) = some ⟨.token .openParen ['('], true, t⟩ := by
  have hgap : gap? (κ := Category) (φ := Fault) ('(' :: t) = none :=
    Lexis.gap?_eq_none (by decide) (by decide)
  have hcomment : read? .commentClose ('(' :: t) = none := read?_commentClose_none (by simp)
  have hparen : read? .openParen ('(' :: t) = some (['('], t) := (read?_paren rfl).mpr ⟨rfl, rfl⟩
  simp only [step?, hgap, lexeme?, hcomment, hparen]

theorem step?_closeParen {operandNext : Bool} :
    step? operandNext (')' :: t) = some ⟨.token .closeParen [')'], false, t⟩ := by
  have hgap : gap? (κ := Category) (φ := Fault) (')' :: t) = none :=
    Lexis.gap?_eq_none (by decide) (by decide)
  have hcomment : read? .commentClose (')' :: t) = none := read?_commentClose_none (by simp)
  have hopen : read? .openParen (')' :: t) = none := read?_paren_none rfl (by simp) t
  have hparen : read? .closeParen (')' :: t) = some ([')'], t) := (read?_paren rfl).mpr ⟨rfl, rfl⟩
  simp only [step?, hgap, lexeme?, hcomment, hopen, hparen]

theorem step?_comment {operandNext : Bool} {body : List Char} (h : ¬['*', '/'] <:+: body) :
    step? operandNext ('/' :: '*' :: (body ++ ['*', '/']) ++ t) =
      some ⟨.token .comment ('/' :: '*' :: (body ++ ['*', '/'])), operandNext, t⟩ := by
  have hgap := Lexis.gap?_comment (κ := Category) (φ := Fault) (Lexis.closing?_of_not_infix h) t
  unfold step?
  simp only [List.cons_append] at hgap ⊢
  rw [hgap]
  rfl

end Words

/-- A token is read as it is spelled where it ends; one with a sign only where an operand may
come. -/
theorem step?_spelled {operandNext : Bool} {c : Category} {r t : List Char} (h : Spelled c r)
    (ht : Ends operandNext c r t) (hsign : Signed c r → operandNext = true) :
    step? operandNext (r ++ t) = some ⟨.token c r, operandAfter operandNext c r, t⟩ := by
  cases h with
  | keyword hw => exact step?_keyword hw ht
  | number hne hds => exact step?_number hne hds ht
  | signed hne hds =>
    obtain rfl := hsign ⟨rfl, rfl⟩
    exact step?_signed hne hds ht
  | quotedString hbody => exact step?_quotedString hbody
  | identifier hr hkey => exact step?_identifier hr hkey ht
  | operator hw => exact step?_operator hw ht
  | openParen => exact step?_openParen
  | closeParen => exact step?_closeParen
  | comment hbody => exact step?_comment hbody

end GraphScribe.Condition
