import GraphScribe.Program.Reading
import GraphScribe.Proofs.Lexis.Scan
import GraphScribe.Proofs.Lexis.Words

/-! # Single readings of a program text

What can be read at one place: a name, a keyword, or one of nine marks of a single character. Names
and marks never begin with a blank or a slash, so no token hides a gap. -/
namespace GraphScribe.Program

open Lexis (NameShaped NameEnds readName gap? Reads Scan)

def Category.mark? : Category → Option Char
  | .declarationOperator => some '='
  | .declarationSeparator => some '.'
  | .openParen => some '('
  | .closeParen => some ')'
  | .openBrace => some '\x7b'
  | .closeBrace => some '\x7d'
  | .repetition => some '!'
  | .statementSeparator => some ';'
  | .ruleSeparator => some ','
  | _ => none

theorem nameShaped_of_reserved : ∀ w ∈ reservedWords, NameShaped w.toList := by decide

theorem mem_reservedWords {w : String} : w ∈ reservedWords ↔ isReserved w = true := by
  simp [isReserved]

theorem read?_keyword {s r t : List Char} : read? .keyword s = some (r, t) ↔
    readName s = some (r, t) ∧ isReserved (String.ofList r) = true ∧ Text.wordEnds t = true := by
  rw [← mem_reservedWords]
  exact Lexis.read?_word rfl nameShaped_of_reserved

theorem read?_identifier (s : List Char) : read? .identifier s = readName s := Lexis.read?_name rfl

theorem read?_mark {c : Category} {a : Char} (hc : c.mark? = some a) {s r t : List Char} :
    read? c s = some (r, t) ↔ r = [a] ∧ s = a :: t := by
  apply Lexis.read?_single
  cases c <;> cases hc <;> rfl

theorem read?_cases {c : Category} {s r t : List Char} (h : read? c s = some (r, t)) :
    ((c = .keyword ∨ c = .identifier) ∧ readName s = some (r, t)) ∨
      ∃ a, c.mark? = some a ∧ r = [a] ∧ s = a :: t := by
  cases c with
  | keyword => exact Or.inl ⟨Or.inl rfl, (read?_keyword.mp h).1⟩
  | identifier => exact Or.inl ⟨Or.inr rfl, by rwa [← read?_identifier]⟩
  | declaration | comment | error => cases h
  | declarationOperator | declarationSeparator | openParen | closeParen | openBrace | closeBrace
  | repetition | statementSeparator | ruleSeparator => exact Or.inr ⟨_, rfl, (read?_mark rfl).mp h⟩

theorem mark?_plain {c : Category} {a : Char} (h : c.mark? = some a) :
    Text.isBlank a = false ∧ a ≠ '/' ∧ Text.isWordChar a = false := by
  cases c <;> cases h <;> decide

theorem isNameStart_plain {a : Char} (h : Lexis.isNameStart a = true) :
    Text.isBlank a = false ∧ a ≠ '/' := by
  have hword := Lexis.isWordChar_of_isNamePart (Lexis.isNamePart_of_isNameStart h)
  constructor
  · exact Lexis.not_blank_of_isWordChar hword
  · rintro rfl
    revert h
    decide

theorem gap?_of_readName {s r t : List Char} (h : readName s = some (r, t)) :
    gap? (κ := Category) (φ := Fault) s = none := by
  obtain ⟨hr, _, rfl⟩ := Lexis.readName_eq_some_iff.mp h
  cases r with
  | nil => exact hr.elim
  | cons a r =>
    obtain ⟨hb, hs⟩ := isNameStart_plain hr.1
    exact Lexis.gap?_eq_none hb hs

theorem gap?_of_read? {c : Category} {s r t : List Char} (h : read? c s = some (r, t)) :
    gap? (κ := Category) (φ := Fault) s = none := by
  rcases read?_cases h with ⟨_, hname⟩ | ⟨a, ha, _, rfl⟩
  · exact gap?_of_readName hname
  · obtain ⟨hb, hs, _⟩ := mark?_plain ha
    exact Lexis.gap?_eq_none hb hs

/-- Names become declarations or stay identifiers. A reserved word is never declared, and is taken
for an identifier only where it cannot be read as a keyword. -/
def recast : Lexis.Recast Category := fun k c s r =>
  match c with
  | .declaration => k = .identifier ∧ isReserved (String.ofList r) = false
  | .identifier =>
    k = .identifier ∧ (isReserved (String.ofList r) = true → read? .keyword s = none)
  | c => k = c

theorem reads_token {c : Category} {s r t : List Char} (h : read? c s = some (r, t))
    (hc : c ≠ .identifier) : Reads recast s (.token c r : Piece) t := by
  have has : recast c c s r := by
    cases c with
    | identifier => exact absurd rfl hc
    | declaration => cases h
    | _ => rfl
  refine Reads.token (gap?_of_read? h) h has ?_ ?_
  · rintro rfl; cases h
  · rintro rfl; cases h

theorem reads_declared {s r t : List Char} (h : read? .identifier s = some (r, t))
    (hr : isReserved (String.ofList r) = false) : Reads recast s (.token .declaration r : Piece) t :=
  .token (gap?_of_read? h) h ⟨rfl, hr⟩ (by decide) (by decide)

theorem reads_name {s r t : List Char} (h : read? .identifier s = some (r, t))
    (hr : isReserved (String.ofList r) = true → read? .keyword s = none) :
    Reads recast s (.token .identifier r : Piece) t :=
  .token (gap?_of_read? h) h ⟨rfl, hr⟩ (by decide) (by decide)

theorem reads_fault {c : Category} {f : Fault} {s r t : List Char}
    (h : read? c s = some (r, t)) : Reads recast s (.fault f r : Piece) t :=
  .marked (gap?_of_read? h) h

/-- Where a word character stands that belongs to no name, nothing but an error can be read. -/
theorem reads_stuck {a : Char} {u t : List Char} {p : Piece} (hword : Text.isWordChar a = true)
    (hpart : Lexis.isNamePart a = false) (h : Reads recast (a :: u) p t) : ∃ f r, p = .fault f r := by
  have hblank := Lexis.not_blank_of_isWordChar hword
  have hgap : gap? (κ := Category) (φ := Fault) (a :: u) = none := by
    refine Lexis.gap?_eq_none hblank ?_
    rintro rfl
    revert hword
    decide
  cases h with
  | gap hg => rw [hgap] at hg; cases hg
  | token _ hr _ _ _ =>
    exfalso
    rcases read?_cases hr with ⟨_, hname⟩ | ⟨b, hb, _, hs⟩
    · have hstart : Lexis.isNameStart a = false := by
        cases hs : Lexis.isNameStart a with
        | false => rfl
        | true => rw [Lexis.isNamePart_of_isNameStart hs] at hpart; cases hpart
      rw [Lexis.readName_eq_none hstart] at hname
      cases hname
    · injection hs with hab _
      rw [hab, (mark?_plain hb).2.2] at hword
      cases hword
  | marked => exact ⟨_, _, rfl⟩
  | stray => exact ⟨_, _, rfl⟩

end GraphScribe.Program
