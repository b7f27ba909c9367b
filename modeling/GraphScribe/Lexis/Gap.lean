import GraphScribe.Text.Blank
import GraphScribe.Lexis.Piece

/-!
# Gaps

The gap before a token consists of blank runs and comments. A comment runs from `/*` to the first
`*/` after it, or to the end of the text.
-/
namespace GraphScribe.Lexis

/-- Cuts off everything up to and with the first `*/`. -/
def closing? : List Char → Option Cut
  | [] => none
  | '*' :: '/' :: rest => some (['*', '/'], rest)
  | c :: s => (closing? s).map fun r => (c :: r.1, r.2)

def readComment : List Char → Option Cut
  | '/' :: '*' :: body =>
    match closing? body with
    | some c => some ('/' :: '*' :: c.1, c.2)
    | none => some ('/' :: '*' :: body, [])
  | _ => none

/-- Cuts a name or, where none begins, a single character off the front. -/
def readStray : List Char → Option Cut
  | [] => none
  | c :: s => some ((readName (c :: s)).getD ([c], s))

theorem closing?_append {s : List Char} {c : Cut} (h : closing? s = some c) :
    c.1 ++ c.2 = s := by
  induction s using closing?.induct generalizing c with
  | case1 => cases h
  | case2 rest => cases h; rfl
  | case3 a s hne ih =>
    rw [closing?] at h
    · obtain ⟨r, hr, rfl⟩ := Option.map_eq_some_iff.mp h
      simp [ih hr]
    · exact hne

theorem readComment_append {s : List Char} {c : Cut} (h : readComment s = some c) :
    c.1 ++ c.2 = s := by
  unfold readComment at h
  split at h
  · split at h
    · rename_i hc
      cases h
      simpa using closing?_append hc
    · cases h; simp
  · cases h

theorem readComment_ne_nil {s : List Char} {c : Cut} (h : readComment s = some c) :
    c.1 ≠ [] := by
  unfold readComment at h
  split at h
  · split at h
    · cases h
      simp
    · cases h
      simp
  · cases h

theorem readComment_shorter {s : List Char} {c : Cut} (h : readComment s = some c) :
    c.2.length < s.length := shorter_of_append (readComment_append h) (readComment_ne_nil h)

theorem readStray_append {s : List Char} {c : Cut} (h : readStray s = some c) :
    c.1 ++ c.2 = s := by
  cases s with
  | nil => cases h
  | cons a s =>
    cases hn : readName (a :: s) with
    | none => simp [readStray, hn] at h; cases h; rfl
    | some d => simp [readStray, hn] at h; cases h; exact readName_append hn

theorem readStray_ne_nil {s : List Char} {c : Cut} (h : readStray s = some c) : c.1 ≠ [] := by
  cases s with
  | nil => cases h
  | cons a s =>
    cases hn : readName (a :: s) with
    | none => simp [readStray, hn] at h; cases h; simp
    | some d => simp [readStray, hn] at h; cases h; exact readName_ne_nil hn

theorem readStray_shorter {s : List Char} {c : Cut} (h : readStray s = some c) :
    c.2.length < s.length := shorter_of_append (readStray_append h) (readStray_ne_nil h)

section Gaps

variable {κ φ : Type} [Lexicon κ]

def gap? (s : List Char) : Option (Piece κ φ × List Char) :=
  match s.takeWhile Text.isBlank with
  | [] => (readComment s).map fun c => (.token Lexicon.comment c.1, c.2)
  | run => some (.blank run, s.dropWhile Text.isBlank)

theorem gap?_append {s : List Char} {g : Piece κ φ × List Char} (h : gap? s = some g) :
    g.1.run ++ g.2 = s := by
  unfold gap? at h
  split at h
  · obtain ⟨c, hc, rfl⟩ := Option.map_eq_some_iff.mp h
    exact readComment_append hc
  · cases h; simp

theorem gap?_run_ne_nil {s : List Char} {g : Piece κ φ × List Char} (h : gap? s = some g) :
    g.1.run ≠ [] := by
  unfold gap? at h
  split at h
  · obtain ⟨c, hc, rfl⟩ := Option.map_eq_some_iff.mp h
    exact readComment_ne_nil hc
  · rename_i run hne
    cases h
    exact hne

theorem gap?_shorter {s : List Char} {g : Piece κ φ × List Char} (h : gap? s = some g) :
    g.2.length < s.length := shorter_of_append (gap?_append h) (gap?_run_ne_nil h)

def gaps (s : List Char) : List (Piece κ φ) × List Char :=
  match h : gap? (φ := φ) (κ := κ) s with
  | none => ([], s)
  | some g =>
    have := gap?_shorter h
    let more := gaps g.2
    (g.1 :: more.1, more.2)
termination_by s.length

end Gaps

end GraphScribe.Lexis
