import GraphScribe.Proofs.Program.Grammar
import GraphScribe.Proofs.Program.Scan

/-! # Layout

In a text every token has a gap before it. The layout of a program is a derivation over tokens with
their gaps. Gaps matter in two places only, where the reader looks at the raw text: no gap stands
before the declaration that opens a block, and no comment between a name that is declared in a block
and its equals sign. -/
namespace GraphScribe.Program

open Lexis (Reads Scan gap? readName)

@[simp] theorem Reading.after_pieces (r : Reading) (ps : List Piece) :
    (r.after ps).pieces = ps ++ r.pieces := rfl

@[simp] theorem Reading.after_rest (r : Reading) (ps : List Piece) : (r.after ps).rest = r.rest :=
  rfl

@[simp] theorem Reading.after_commands (r : Reading) (ps : List Piece) :
    (r.after ps).commands = r.commands := rfl

theorem Reading.after_after (r : Reading) (ps qs : List Piece) :
    (r.after ps).after qs = r.after (qs ++ ps) := by
  simp [Reading.after]

theorem Reading.after_andThen (r : Reading) (ps : List Piece) (next : List Char → Reading) :
    (r.andThen next).after ps = (r.after ps).andThen next := by
  simp [Reading.after, Reading.andThen]

theorem Reading.after_eq {r : Reading} {g ps : List Piece} {t : List Char}
    (h : r.after g = ⟨ps, t, 0⟩) (qs : List Piece) : r.after (qs ++ g) = ⟨qs ++ ps, t, 0⟩ := by
  rw [← Reading.after_after, h]
  rfl

theorem read?_mark_cons {c : Category} {b : Char} (hc : c.mark? = some b) (a : Char)
    (v : List Char) : read? c (a :: v) = if a = b then some ([b], v) else none := by
  cases hr : read? c (a :: v) with
  | some cut =>
    obtain ⟨h, hs⟩ := (read?_mark hc).mp hr
    obtain ⟨rfl, rfl⟩ := List.cons.inj hs
    rw [if_pos rfl, ← h]
  | none =>
    rw [if_neg]
    rintro rfl
    rw [(read?_mark hc).mpr ⟨rfl, rfl⟩] at hr
    cases hr

theorem read?_mark_nil {c : Category} {b : Char} (hc : c.mark? = some b) : read? c [] = none := by
  cases hr : read? c [] with
  | none => rfl
  | some cut =>
    obtain ⟨_, hs⟩ := (read?_mark hc).mp hr
    cases hs

theorem read?_keyword_of_readName {s : List Char} (h : readName s = none) :
    read? .keyword s = none := by
  cases hr : read? .keyword s with
  | none => rfl
  | some cut =>
    rw [(read?_keyword.mp hr).1] at h
    cases h

theorem keyword?_of_read? {w : String} {s r t : List Char} (h : read? .keyword s = some (r, t)) :
    keyword? w s = if String.ofList r = w then some (r, t) else none := by
  unfold keyword?
  rw [h]
  by_cases hw : String.ofList r = w <;> simp [Option.filter, hw]

theorem keyword?_of_none {w : String} {s : List Char} (h : read? .keyword s = none) :
    keyword? w s = none := by
  unfold keyword?
  rw [h]
  rfl

theorem readName_head {s r t : List Char} (h : readName s = some (r, t)) :
    ∃ a v, s = a :: v ∧ Lexis.isNameStart a = true := by
  obtain ⟨hr, _, rfl⟩ := Lexis.readName_eq_some_iff.mp h
  cases r with
  | nil => exact hr.elim
  | cons a r => exact ⟨a, r ++ t, rfl, hr.1⟩

theorem readName_of_mark {c : Category} {a : Char} (hc : c.mark? = some a) (v : List Char) :
    readName (a :: v) = none := by
  refine Lexis.readName_eq_none ?_
  cases hs : Lexis.isNameStart a with
  | false => rfl
  | true =>
    have hword := Lexis.isWordChar_of_isNamePart (Lexis.isNamePart_of_isNameStart hs)
    rw [(mark?_plain hc).2.2] at hword
    cases hword

theorem read?_mark_of_readName {c : Category} {b : Char} (hc : c.mark? = some b)
    {s r t : List Char} (h : readName s = some (r, t)) : read? c s = none := by
  cases hr : read? c s with
  | none => rfl
  | some cut =>
    obtain ⟨_, rfl⟩ := (read?_mark hc).mp hr
    rw [readName_of_mark hc] at h
    cases h

theorem read?_keyword_of_name {s t : List Char} {n : String} (hn : IsName n)
    (h : readName s = some (n.toList, t)) : read? .keyword s = none := by
  cases hk : read? .keyword s with
  | none => rfl
  | some cut =>
    obtain ⟨r, u⟩ := cut
    obtain ⟨hr, hres, _⟩ := read?_keyword.mp hk
    rw [h] at hr
    cases hr
    rw [String.ofList_toList, hn.2] at hres
    cases hres

theorem ruleSetEnds_of_readName {s r t : List Char} (h : readName s = some (r, t)) :
    ruleSetEnds s = false := by
  obtain ⟨a, v, rfl, _⟩ := readName_head h
  simp [ruleSetEnds, sequenceEnds, starts,
    read?_mark_of_readName (c := .declarationSeparator) rfl h,
    read?_mark_of_readName (c := .closeParen) rfl h,
    read?_mark_of_readName (c := .closeBrace) rfl h,
    read?_mark_of_readName (c := .statementSeparator) rfl h]

/-- The category as which a token of category `c` is recognised. -/
def Category.readAs : Category → Category
  | .declaration => .identifier
  | c => c

theorem eq_readAs_of_recast {k c : Category} {s r : List Char} (h : recast k c s r) :
    k = c.readAs := by
  cases c with
  | declaration => exact h.1
  | identifier => exact h.1
  | _ => exact h

theorem recast_of_reads {c : Category} (hc : c ≠ .comment) {s r t : List Char}
    (h : Reads recast s (.token c r : Piece) t) :
    ∃ k, read? k s = some (r, t) ∧ recast k c s r := by
  generalize hp : (.token c r : Piece) = p at h
  cases h with
  | gap hg =>
    rcases Lexis.gap?_cases hg with ⟨rfl, _, _⟩ | ⟨u, rfl, _⟩
    · cases hp
    · cases hp
      exact absurd rfl hc
  | token _ hr has _ _ =>
    cases hp
    exact ⟨_, hr, has⟩
  | marked => cases hp
  | stray => cases hp

theorem read?_of_reads {c : Category} (hc : c ≠ .comment) {s r t : List Char}
    (h : Reads recast s (.token c r : Piece) t) : read? c.readAs s = some (r, t) := by
  obtain ⟨k, hr, has⟩ := recast_of_reads hc h
  rw [← eq_readAs_of_recast has]
  exact hr

abbrev Spaced := List Piece × Piece

def Spaced.Is (c : Category) (r : List Char) (x : Spaced) : Prop :=
  x.2 = .token c r ∧ ∀ p ∈ x.1, p.IsGap

def Spaced.OnlyBlanks (x : Spaced) : Prop := ∀ p ∈ x.1, ∃ r, p = .blank r

def spaced : Terminals Spaced where
  keyword w x := x.Is .keyword w.toList
  mark c x := ∃ ch, c.mark? = some ch ∧ x.Is c [ch]
  name x := ∃ n, IsName n ∧ x.Is .identifier n.toList
  declared p x := ∃ n, IsName n ∧ x.Is .declaration n.toList ∧ (p = .first → x.1 = [])
  sign p x := x.Is .declarationOperator ['='] ∧ (p ≠ .top → x.OnlyBlanks)

def flatten (xs : List Spaced) : List Piece := xs.flatMap fun x => x.1 ++ [x.2]

@[simp] theorem flatten_nil : flatten [] = [] := rfl

@[simp] theorem flatten_cons (x : Spaced) (xs : List Spaced) :
    flatten (x :: xs) = x.1 ++ x.2 :: flatten xs := by
  simp [flatten]

@[simp] theorem flatten_append (xs ys : List Spaced) :
    flatten (xs ++ ys) = flatten xs ++ flatten ys := by
  simp [flatten]

/-- The tokens, each with all of the gap before it, lead from the text `s` to its rest. -/
inductive Laid : List Char → List Spaced → List Char → Prop where
  | nil (s) : Laid s [] s
  | cons {s x t xs u} : (gaps s).pieces = x.1 → Reads recast (gaps s).rest x.2 t → Laid t xs u →
      Laid s (x :: xs) u

theorem Laid.split {s u : List Char} {xs ys : List Spaced} (h : Laid s (xs ++ ys) u) :
    ∃ t, Laid s xs t ∧ Laid t ys u := by
  induction xs generalizing s with
  | nil => exact ⟨s, .nil s, h⟩
  | cons x xs ih =>
    cases h with
    | cons hg hr h =>
      obtain ⟨t, ht, hu⟩ := ih h
      exact ⟨t, .cons hg hr ht, hu⟩

theorem Laid.uncons {s u : List Char} {x : Spaced} {xs : List Spaced} (h : Laid s (x :: xs) u) :
    ∃ t, Laid s [x] t ∧ Laid t xs u := by
  have h : Laid s ([x] ++ xs) u := h
  exact h.split

theorem Laid.uncons_two {s u : List Char} {x y : Spaced} {xs : List Spaced}
    (h : Laid s (x :: y :: xs) u) : ∃ t, Laid s [x, y] t ∧ Laid t xs u := by
  have h : Laid s ([x, y] ++ xs) u := h
  exact h.split

theorem Laid.trans {s t u : List Char} {xs ys : List Spaced} (h : Laid s xs t) (k : Laid t ys u) :
    Laid s (xs ++ ys) u := by
  induction h with
  | nil => exact k
  | cons hg hr _ ih => exact .cons hg hr (ih k)

theorem isGap_of_mem_gaps (s : List Char) : ∀ p ∈ (gaps s).pieces, p.IsGap :=
  Lexis.isGap_of_mem_gaps s

theorem Laid.token {c : Category} {s r t u : List Char} {xs : List Spaced}
    (h : read? c (gaps s).rest = some (r, t)) (hc : c ≠ .identifier) (k : Laid t xs u) :
    Laid s (((gaps s).pieces, .token c r) :: xs) u := .cons rfl (reads_token h hc) k

section Terminals

variable {s u : List Char} {x : Spaced} {xs : List Spaced}

theorem Laid.read {c : Category} {r : List Char} (h : Laid s (x :: xs) u) (hx : x.Is c r)
    (hc : c ≠ .comment) :
    ∃ t, (gaps s).pieces = x.1 ∧ read? c.readAs (gaps s).rest = some (r, t) ∧ Laid t xs u := by
  cases h with
  | cons hg hr h =>
    rw [hx.1] at hr
    exact ⟨_, hg, read?_of_reads hc hr, h⟩

theorem Laid.keyword {w : String} (h : Laid s (x :: xs) u) (hx : spaced.keyword w x) :
    ∃ t, (gaps s).pieces = x.1 ∧ x.2 = .token .keyword w.toList ∧
      read? .keyword (gaps s).rest = some (w.toList, t) ∧ Laid t xs u := by
  obtain ⟨t, hg, hr, ht⟩ := h.read hx (by decide)
  exact ⟨t, hg, hx.1, hr, ht⟩

theorem Laid.mark {c : Category} (h : Laid s (x :: xs) u) (hx : spaced.mark c x) :
    ∃ a t, c.mark? = some a ∧ (gaps s).pieces = x.1 ∧ x.2 = .token c [a] ∧
      (gaps s).rest = a :: t ∧ Laid t xs u := by
  obtain ⟨a, ha, hx⟩ := hx
  obtain ⟨t, hg, hr, ht⟩ := h.read hx (by rintro rfl; cases ha)
  have has : c.readAs = c := by
    cases c with
    | declaration => cases ha
    | _ => rfl
  rw [has] at hr
  exact ⟨a, t, ha, hg, hx.1, ((read?_mark ha).mp hr).2, ht⟩

theorem Laid.name (h : Laid s (x :: xs) u) (hx : spaced.name x) :
    ∃ n t, IsName n ∧ (gaps s).pieces = x.1 ∧ x.2 = .token .identifier n.toList ∧
      readName (gaps s).rest = some (n.toList, t) ∧ Laid t xs u := by
  obtain ⟨n, hn, hx⟩ := hx
  obtain ⟨t, hg, hr, ht⟩ := h.read hx (by decide)
  rw [show Category.identifier.readAs = .identifier from rfl, read?_identifier] at hr
  exact ⟨n, t, hn, hg, hx.1, hr, ht⟩

theorem Laid.declared {p : Place} (h : Laid s (x :: xs) u) (hx : spaced.declared p x) :
    ∃ n t, IsName n ∧ (gaps s).pieces = x.1 ∧ x.2 = .token .declaration n.toList ∧
      readName (gaps s).rest = some (n.toList, t) ∧ (p = .first → x.1 = []) ∧ Laid t xs u := by
  obtain ⟨n, hn, hx, hfirst⟩ := hx
  obtain ⟨t, hg, hr, ht⟩ := h.read hx (by decide)
  rw [show Category.declaration.readAs = .identifier from rfl, read?_identifier] at hr
  exact ⟨n, t, hn, hg, hx.1, hr, hfirst, ht⟩

theorem Laid.sign {p : Place} (h : Laid s (x :: xs) u) (hx : spaced.sign p x) :
    ∃ t, (gaps s).pieces = x.1 ∧ x.2 = .token .declarationOperator ['='] ∧
      (gaps s).rest = '=' :: t ∧ (p ≠ .top → x.OnlyBlanks) ∧ Laid t xs u := by
  obtain ⟨hx, hblank⟩ := hx
  obtain ⟨t, hg, hr, ht⟩ := h.read hx (by decide)
  exact ⟨t, hg, hx.1, ((read?_mark rfl).mp hr).2, hblank, ht⟩

end Terminals

/-- Whether a closing parenthesis ends the declarations of a place. -/
def Place.scope : Place → Scope
  | .top => .top
  | .first | .inner => .inner

@[simp] theorem Place.next_scope (p : Place) : p.next.scope = p.scope := by
  cases p <;> rfl

theorem startsDeclaration_iff {s : List Char} : startsDeclaration s = true ↔
    ∃ r t, readName s = some (r, t) ∧ isReserved (String.ofList r) = false ∧
      (Text.dropBlank t).head? = some '=' := by
  unfold startsDeclaration
  split
  · rename_i r t h
    rw [h]
    constructor
    · intro hs
      exact ⟨r, t, rfl, by simpa using hs⟩
    · rintro ⟨r', t', heq, hs⟩
      cases heq
      simpa using hs
  · rename_i h
    simp [h]

/-- Only blanks stand before an equals sign that is the first character after blanks. -/
theorem gaps_of_sign {s : List Char} (h : (Text.dropBlank s).head? = some '=') :
    (gaps s).rest = Text.dropBlank s ∧ ∀ p ∈ (gaps s).pieces, ∃ r, p = .blank r := by
  obtain ⟨t, ht⟩ := List.head?_eq_some_iff.mp h
  refine Lexis.gaps_of_dropBlank ?_
  rw [ht]
  exact Lexis.gap?_eq_none (by decide) (by decide)

def lexeme? : Piece → Option Lexeme
  | .blank _ => none
  | .token c r => if c = .comment then none else some (c, String.ofList r)
  | .fault _ r => some (.error, String.ofList r)

/-- Category and text of the tokens, the comments left out. -/
def significant (ts : Tokens Category) : List Lexeme :=
  ts.summary.filter fun l => l.1 ≠ .comment

theorem significant_layOut (start : Nat) (ps : List Piece) :
    significant (Lexis.layOut start ps).toArray = ps.filterMap lexeme? := by
  unfold significant Tokens.summary
  rw [List.toList_toArray]
  induction ps generalizing start with
  | nil => rfl
  | cons p ps ih =>
    rw [Lexis.layOut_cons, List.map_append, List.filter_append, ih, List.filterMap_cons]
    cases p with
    | blank r => rfl
    | token c r => by_cases hc : c = .comment <;> simp [Lexis.Piece.token?, Token.ofRun, lexeme?, hc]
    | fault f r => rfl

theorem lexeme?_of_isGap {p : Piece} (h : p.IsGap) : lexeme? p = none := by
  cases p with
  | blank r => rfl
  | token c r => simp [lexeme?, show c = .comment from h]
  | fault f r => exact h.elim

theorem filterMap_gap {ps : List Piece} (h : ∀ p ∈ ps, p.IsGap) : ps.filterMap lexeme? = [] :=
  List.filterMap_eq_nil_iff.mpr fun p hp => lexeme?_of_isGap (h p hp)

theorem Laid.filterMap_flatten {s t : List Char} {xs : List Spaced} (h : Laid s xs t) :
    (flatten xs).filterMap lexeme? = xs.filterMap fun x => lexeme? x.2 := by
  induction h with
  | nil => rfl
  | @cons s x _ _ _ hg _ _ ih =>
    rw [flatten_cons, List.filterMap_append, ← hg, filterMap_gap (isGap_of_mem_gaps s),
      List.nil_append, List.filterMap_cons, List.filterMap_cons, ih]

def bared (_ : Unit) (x : Spaced) (_ : Unit) (a : Lexeme) : Prop := lexeme? x.2 = some a

theorem lexeme?_of_reads {s t : List Char} {p : Piece} (h : Reads recast s p t)
    (hs : gap? (κ := Category) (φ := Fault) s = none) : ∃ a, lexeme? p = some a := by
  cases h with
  | gap hg =>
    rw [hs] at hg
    cases hg
  | token _ _ _ hne _ => exact ⟨_, if_neg hne⟩
  | marked => exact ⟨_, rfl⟩
  | stray => exact ⟨_, rfl⟩

theorem Laid.bared_rewrites {s t : List Char} {xs : List Spaced} (h : Laid s xs t) :
    Rewrites bared () xs () (xs.filterMap fun x => lexeme? x.2) := by
  induction h with
  | nil => exact .nil ()
  | @cons s x _ xs _ _ hr _ ih =>
    obtain ⟨a, ha⟩ := lexeme?_of_reads hr (gap?_rest_gaps s)
    rw [List.filterMap_cons, ha]
    exact .cons ha ih

theorem spaced_keeps : Keeps spaced lexemes bared fun _ => True where
  keyword := by
    intro _ x _ a w hb hx
    simp only [bared, hx.1, lexeme?, String.ofList_toList] at hb
    cases hb
    rfl
  mark := by
    rintro _ x _ a c hb ⟨ch, hc, hx⟩
    have hne : c ≠ .comment := by rintro rfl; cases hc
    simp only [bared, hx.1, lexeme?, if_neg hne] at hb
    cases hb
    exact ⟨ch, hc, by rw [String.singleton_eq_ofList]⟩
  name := by
    rintro _ x _ a hb ⟨n, hn, hx⟩
    simp only [bared, hx.1, lexeme?, String.ofList_toList] at hb
    cases hb
    exact ⟨rfl, hn⟩
  declared := by
    rintro _ x _ a p hb ⟨n, hn, hx, _⟩ _
    simp only [bared, hx.1, lexeme?, String.ofList_toList] at hb
    cases hb
    exact ⟨rfl, hn⟩
  sign := by
    rintro _ x _ a p hb ⟨hx, _⟩
    simp only [bared, hx.1, lexeme?] at hb
    cases hb
    rfl
  opens := fun _ _ => trivial

def categoryOf : Piece → Category
  | .blank _ => .comment
  | .token c _ => c
  | .fault _ _ => .error

def Spaced.lexeme (x : Spaced) : Lexeme := (categoryOf x.2, String.ofList x.2.run)

theorem lexeme?_eq {p : Piece} {l : Lexeme} (h : lexeme? p = some l) :
    l = (categoryOf p, String.ofList p.run) := by
  cases p with
  | blank r => cases h
  | token c r =>
    by_cases hc : c = .comment
    · simp [lexeme?, hc] at h
    · simp only [lexeme?, if_neg hc] at h
      cases h
      rfl
  | fault f r => cases h; rfl

/-- The significant tokens of a layout are its letters. -/
theorem Laid.lexemes {s t : List Char} {xs : List Spaced} (h : Laid s xs t) :
    (xs.filterMap fun x => lexeme? x.2) = xs.map Spaced.lexeme := by
  induction h with
  | nil => rfl
  | @cons s x t xs u hg hr _ ih =>
    obtain ⟨l, hl⟩ := lexeme?_of_reads hr (gap?_rest_gaps s)
    rw [List.filterMap_cons, hl, List.map_cons, ih, lexeme?_eq hl, Spaced.lexeme]

theorem significant_of_laid {s t : List Char} {xs : List Spaced} (h : Laid s xs t) (start : Nat) :
    significant (Lexis.layOut start (flatten xs ++ (gaps t).pieces)).toArray =
      xs.map Spaced.lexeme := by
  rw [significant_layOut, List.filterMap_append, filterMap_gap (isGap_of_mem_gaps t),
    List.append_nil, h.filterMap_flatten, h.lexemes]

theorem blank_of_no_comments {start : Nat} {ps : List Piece}
    (h : ∀ t ∈ Lexis.layOut start ps, t.category ≠ .comment) {p : Piece} (hp : p ∈ ps)
    (hgap : p.IsGap) : ∃ r, p = .blank r := by
  obtain ⟨before, after, rfl⟩ := List.append_of_mem hp
  cases p with
  | blank r => exact ⟨r, rfl⟩
  | token c r =>
    obtain rfl : c = .comment := hgap
    exact absurd rfl (h _ (Lexis.mem_layOut.mpr ⟨before, _, after, rfl, rfl⟩))
  | fault f r => exact hgap.elim

theorem Laid.isGap {s t : List Char} {xs : List Spaced} (h : Laid s xs t) :
    ∀ x ∈ xs, ∀ p ∈ x.1, p.IsGap := by
  induction h with
  | nil => exact List.forall_mem_nil _
  | @cons s x t xs u hg _ _ ih =>
    refine List.forall_mem_cons.mpr ⟨?_, ih⟩
    rw [← hg]
    exact isGap_of_mem_gaps s

theorem mem_flatten_of_gap {xs : List Spaced} {x : Spaced} {p : Piece} (hx : x ∈ xs)
    (hp : p ∈ x.1) : p ∈ flatten xs :=
  List.mem_flatMap.mpr ⟨x, hx, List.mem_append_left _ hp⟩

end GraphScribe.Program
