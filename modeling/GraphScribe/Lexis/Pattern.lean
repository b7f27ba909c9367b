import GraphScribe.Text.WordChar

/-!
# Patterns

A pattern describes the texts one token category may have. `Pattern.read` cuts such a text off the
front of the input: what it cuts off is never empty, and nothing of the input is lost.
-/
namespace GraphScribe.Lexis

def isNameStart (c : Char) : Bool := c.isAlpha || c == '_'

def isNamePart (c : Char) : Bool := c.isAlphanum || c == '_'

inductive Pattern where
  /-- One of the words, tried in order, where no word character follows it. -/
  | word (choices : List String)
  | name
  | number
  /-- A text between double quotes that holds neither a double quote nor a line end. -/
  | quotation
  | symbol (choices : List String)
  deriving DecidableEq, Repr

abbrev Cut := List Char × List Char

theorem shorter_of_append {r t s : List Char} (h : r ++ t = s) (hr : r ≠ []) :
    t.length < s.length := by
  have hpos := List.length_pos_iff.mpr hr
  rw [← h, List.length_append]
  omega

def cut? (lead s : List Char) : Option Cut :=
  if lead.isPrefixOf s then some (lead, s.drop lead.length) else none

def readName : List Char → Option Cut
  | [] => none
  | c :: s =>
    if isNameStart c then some (c :: s.takeWhile isNamePart, s.dropWhile isNamePart) else none

def readDigits (sign s : List Char) : Option Cut :=
  match s.takeWhile Char.isDigit with
  | [] => none
  | digits => some (sign ++ digits, s.dropWhile Char.isDigit)

def readNumber : List Char → Option Cut
  | '-' :: s => readDigits ['-'] s
  | s => readDigits [] s

def isQuotable (c : Char) : Bool := c != '"' && c != '\n'

def readQuotation : List Char → Option Cut
  | '"' :: s =>
    match s.dropWhile isQuotable with
    | '"' :: rest => some ('"' :: s.takeWhile isQuotable ++ ['"'], rest)
    | _ => none
  | _ => none

def readWord (choices : List String) (s : List Char) : Option Cut :=
  choices.findSome? fun w => (cut? w.toList s).filter fun c => Text.wordEnds c.2

def readSymbol (choices : List String) (s : List Char) : Option Cut :=
  choices.findSome? fun w => cut? w.toList s

/-- Cuts a text of the pattern off the front of `s`; an empty one does not count. -/
def Pattern.read (p : Pattern) (s : List Char) : Option Cut :=
  let cut := match p with
    | .word choices => readWord choices s
    | .name => readName s
    | .number => readNumber s
    | .quotation => readQuotation s
    | .symbol choices => readSymbol choices s
  cut.filter fun c => !c.1.isEmpty

theorem cut?_append {lead s : List Char} {c : Cut} (h : cut? lead s = some c) :
    c.1 ++ c.2 = s := by
  simp only [cut?] at h
  split at h
  · rename_i hp
    cases h
    exact List.prefix_iff_eq_append.mp (List.isPrefixOf_iff_prefix.mp hp)
  · cases h

theorem readName_append {s : List Char} {c : Cut} (h : readName s = some c) :
    c.1 ++ c.2 = s := by
  cases s with
  | nil => cases h
  | cons a s =>
    simp only [readName] at h
    split at h
    · cases h; simp
    · cases h

theorem readName_ne_nil {s : List Char} {c : Cut} (h : readName s = some c) : c.1 ≠ [] := by
  cases s with
  | nil => cases h
  | cons a s =>
    simp only [readName] at h
    split at h
    · cases h; simp
    · cases h

theorem readDigits_append {sign s : List Char} {c : Cut} (h : readDigits sign s = some c) :
    c.1 ++ c.2 = sign ++ s := by
  simp only [readDigits] at h
  split at h
  · cases h
  · cases h; simp

theorem readNumber_append {s : List Char} {c : Cut} (h : readNumber s = some c) :
    c.1 ++ c.2 = s := by
  unfold readNumber at h
  split at h <;> simpa using readDigits_append h

theorem readQuotation_append {s : List Char} {c : Cut} (h : readQuotation s = some c) :
    c.1 ++ c.2 = s := by
  unfold readQuotation at h
  split at h
  · rename_i s
    split at h
    · rename_i rest hd
      cases h
      have := List.takeWhile_append_dropWhile (p := isQuotable) (l := s)
      rw [hd] at this
      simp [this]
    · cases h
  · cases h

theorem readWord_append {choices : List String} {s : List Char} {c : Cut}
    (h : readWord choices s = some c) : c.1 ++ c.2 = s := by
  obtain ⟨w, _, hw⟩ := List.exists_of_findSome?_eq_some h
  exact cut?_append (Option.filter_eq_some_iff.mp hw).1

theorem readSymbol_append {choices : List String} {s : List Char} {c : Cut}
    (h : readSymbol choices s = some c) : c.1 ++ c.2 = s := by
  obtain ⟨w, _, hw⟩ := List.exists_of_findSome?_eq_some h
  exact cut?_append hw

theorem Pattern.read_append {p : Pattern} {s : List Char} {c : Cut} (h : p.read s = some c) :
    c.1 ++ c.2 = s := by
  have h := (Option.filter_eq_some_iff.mp h).1
  cases p with
  | word => exact readWord_append h
  | name => exact readName_append h
  | number => exact readNumber_append h
  | quotation => exact readQuotation_append h
  | symbol => exact readSymbol_append h

theorem Pattern.read_ne_nil {p : Pattern} {s : List Char} {c : Cut} (h : p.read s = some c) :
    c.1 ≠ [] := by
  simpa using (Option.filter_eq_some_iff.mp h).2

theorem Pattern.read_shorter {p : Pattern} {s : List Char} {c : Cut} (h : p.read s = some c) :
    c.2.length < s.length := shorter_of_append (read_append h) (read_ne_nil h)

end GraphScribe.Lexis
