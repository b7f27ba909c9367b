import GraphScribe.Style.Color
import GraphScribe.Style.StyleClass

/-!
# Style sheets

One style for each style class. The default sheet is only a starting point: a configuration or the
host replaces single styles or the whole sheet.
-/
namespace GraphScribe

structure Style where
  foreground : Option Color := none
  background : Option Color := none
  bold : Bool := false
  italic : Bool := false
  underline : Bool := false
  deriving DecidableEq, Repr

namespace Style

def ink (c : Color) : Style := { foreground := some c }

def inBold (s : Style) : Style := { s with bold := true }

def inItalic (s : Style) : Style := { s with italic := true }

def underlined (s : Style) : Style := { s with underline := true }

def on (s : Style) (background : Color) : Style := { s with background := some background }

end Style

structure StyleSheet where
  plain : Style := {}
  identifier : Style := .ink ⟨0x00, 0x00, 0x80⟩
  keyword : Style := (Style.ink ⟨0x7f, 0x00, 0x55⟩).inBold
  number : Style := .ink ⟨0x09, 0x86, 0x58⟩
  quotedString : Style := .ink ⟨0xa3, 0x15, 0x15⟩
  comment : Style := (Style.ink ⟨0x3f, 0x7f, 0x5f⟩).inItalic
  declaration : Style := (Style.ink ⟨0x00, 0x00, 0xc0⟩).inBold
  error : Style := ((Style.ink ⟨0xc0, 0x00, 0x00⟩).on ⟨0xff, 0xe0, 0xe0⟩).underlined
  deriving DecidableEq, Repr

namespace StyleSheet

def get (sheet : StyleSheet) : StyleClass → Style
  | .plain => sheet.plain
  | .identifier => sheet.identifier
  | .keyword => sheet.keyword
  | .number => sheet.number
  | .quotedString => sheet.quotedString
  | .comment => sheet.comment
  | .declaration => sheet.declaration
  | .error => sheet.error

def set (sheet : StyleSheet) (c : StyleClass) (s : Style) : StyleSheet :=
  match c with
  | .plain => { sheet with plain := s }
  | .identifier => { sheet with identifier := s }
  | .keyword => { sheet with keyword := s }
  | .number => { sheet with number := s }
  | .quotedString => { sheet with quotedString := s }
  | .comment => { sheet with comment := s }
  | .declaration => { sheet with declaration := s }
  | .error => { sheet with error := s }

/-- The style of the class with this name; a name that no class has gets the plain style. -/
def named (sheet : StyleSheet) (name : String) : Style :=
  match StyleClass.ofName? name with
  | some c => sheet.get c
  | none => sheet.plain

@[simp] theorem get_set_same (sheet : StyleSheet) (c : StyleClass) (s : Style) :
    (sheet.set c s).get c = s := by
  cases c <;> rfl

theorem get_set_of_ne (sheet : StyleSheet) {c d : StyleClass} (s : Style) (h : d ≠ c) :
    (sheet.set c s).get d = sheet.get d := by
  cases c <;> cases d <;> first | rfl | exact absurd rfl h

end StyleSheet

end GraphScribe
