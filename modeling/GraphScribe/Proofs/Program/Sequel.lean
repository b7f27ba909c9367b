import GraphScribe.Proofs.Program.Tail

/-! # Two readings side by side

A text that ends with a period is read alone and with a sequel after it. Up to that period no
look-ahead sees the sequel, so both readings take the same steps. From there on the text alone has
nothing left to read, and the sequel is read in whatever scope the period has left open. -/
namespace GraphScribe.Program

open Lexis (Reads Scan gap? readName)

theorem gap?_period (u : List Char) : gap? (κ := Category) (φ := Fault) ('.' :: u) = none :=
  Lexis.gap?_eq_none (by decide) (by decide)

theorem read?_keyword_eq (s : List Char) : read? .keyword s =
    (readName s).filter fun cut => isReserved (String.ofList cut.1) && Text.wordEnds cut.2 := by
  ext cut
  rw [Option.filter_eq_some_iff, Bool.and_eq_true]
  exact read?_keyword

theorem gap_ne_period (s : List Char) : ∀ p ∈ (gaps s).pieces, p.run ≠ ['.'] := by
  intro p hp hrun
  have hproper := (scans_gaps s).proper p hp
  obtain ⟨before, after, heq⟩ := List.append_of_mem hp
  have hscan : Scan recast s (before ++ p :: after) (gaps s).rest := heq ▸ scans_gaps s
  have hread := hscan.reads_of_mem
  cases p with
  | blank r =>
    rw [Lexis.Piece.run_blank] at hrun
    subst hrun
    exact absurd (hproper '.' (by simp)) (by decide)
  | token c r =>
    obtain rfl : c = .comment := isGap_of_mem_gaps s _ hp
    have hcomment := hread.comment
    obtain ⟨body, rfl, _⟩ := Lexis.readComment_cases hcomment
    cases hrun
  | fault f r => exact (isGap_of_mem_gaps s _ hp).elim

def Reading.uncounted (r : Reading) : Reading := ⟨r.pieces, r.rest, 0⟩

/-- The reader reads nothing where only a gap is left. -/
def Idle (f : List Char → Reading) : Prop := ∀ s, (gaps s).rest = [] → f s = ⟨[], s, 0⟩

def Declines {α : Type} (f : List Char → Option α) : Prop := ∀ s, (gaps s).rest = [] → f s = none

theorem idle_many {step : List Char → Option Reading} (h : Declines step) :
    Idle (Reading.many step) := fun s hs => Reading.many_of_none (h s hs)

def parens (ps : List Piece) : Nat := ps.countP fun p => p.run = ['(']

theorem parens_append (ps qs : List Piece) : parens (ps ++ qs) = parens ps + parens qs :=
  List.countP_append

/-- What comes after the last period of a text: blanks and a text that is read as the same pieces in
every scope with enough levels. It begins like a declaration and leaves nothing unread. -/
structure Sequel where
  blanks : List Char
  text : List Char
  pieces : List Piece
  rest : List Char
  need : Nat
  blank : ∀ c ∈ blanks, Text.isBlank c = true
  ended : (gaps rest).rest = []
  starts : startsDeclaration (Text.dropBlank (blanks ++ text)) = true
  reads : ∀ {n}, need ≤ n → ∀ scope,
    ∃ c, declarations (block n) scope (blanks ++ text) = ⟨pieces, rest, c⟩

namespace Sequel

variable (k : Sequel)

/-- The last period is still to be read. -/
def Pending (s : List Char) : Prop := ∃ ps : List Piece, Scan recast s ps ('.' :: k.blanks)

def stretch (cut : Lexis.Cut) : Lexis.Cut := (cut.1, cut.2 ++ k.text)

variable {k} {s t : List Char}

/-- A step goes on before the last period, or takes that period. -/
theorem Pending.step {p : Piece} (h : k.Pending s) (hp : Reads recast s p t) :
    k.Pending t ∨ (p.run = ['.'] ∧ t = k.blanks) := by
  obtain ⟨ps, hs⟩ := h
  cases hs with
  | nil =>
    -- nothing stands before the last period, so it is what is read
    right
    rcases run_of_reads hp (gap?_period _) with hname | ⟨_, a, hrun, hcons⟩
    · rw [Lexis.readName_eq_none (by decide)] at hname
      cases hname
    · obtain ⟨rfl, rfl⟩ := List.cons.inj hcons
      exact ⟨hrun, rfl⟩
  | cons hq hs =>
    left
    rw [(reads_unique hp hq).2]
    exact ⟨_, hs⟩

theorem Pending.step_of_ne {p : Piece} (h : k.Pending s) (hp : Reads recast s p t)
    (hne : p.run ≠ ['.']) : k.Pending t := (h.step hp).resolve_right fun h => hne h.1

theorem Pending.mem (h : k.Pending s) : '.' ∈ s := by
  obtain ⟨ps, hs⟩ := h
  rw [← hs.append]
  simp

theorem Pending.ne_nil (h : k.Pending s) : s ≠ [] := by
  rintro rfl
  exact absurd h.mem List.not_mem_nil

theorem Pending.isEmpty (h : k.Pending s) : s.isEmpty = false := by
  simp [h.ne_nil]

theorem Pending.head (h : k.Pending s) (u : List Char) : (s ++ u).head? = s.head? := by
  obtain ⟨c, s, rfl⟩ := List.exists_cons_of_ne_nil h.ne_nil
  rfl

theorem Pending.name {r : List Char} (h : k.Pending s) (hr : readName s = some (r, t)) :
    k.Pending t := by
  have hread : Reads recast s (.fault .leadingSeparator r : Piece) t :=
    reads_fault (c := .identifier) (by rw [read?_identifier, hr])
  refine h.step_of_ne hread ?_
  rintro rfl
  exact absurd (Lexis.readName_eq_some_iff.mp hr).1 (by decide)

theorem Pending.readName_stretch (h : k.Pending s) :
    readName (s ++ k.text) = (readName s).map k.stretch := by
  cases hr : readName s with
  | some cut =>
    obtain ⟨r, t⟩ := cut
    obtain ⟨hshape, hend, rfl⟩ := Lexis.readName_eq_some_iff.mp hr
    refine Lexis.readName_eq_some_iff.mpr ⟨hshape, ?_, by simp⟩
    intro d hd
    exact hend d (by rwa [← (h.name hr).head k.text])
  | none =>
    obtain ⟨c, s, rfl⟩ := List.exists_cons_of_ne_nil h.ne_nil
    have hstart : Lexis.isNameStart c = false := by
      cases hc : Lexis.isNameStart c with
      | false => rfl
      | true => simp [readName, hc] at hr
    exact Lexis.readName_eq_none hstart

theorem Pending.read?_stretch (h : k.Pending s) (c : Category) :
    read? c (s ++ k.text) = (read? c s).map k.stretch := by
  obtain ⟨a, s, rfl⟩ := List.exists_cons_of_ne_nil h.ne_nil
  have mark : ∀ {c : Category} {b : Char}, c.mark? = some b →
      read? c (a :: s ++ k.text) = (read? c (a :: s)).map k.stretch := by
    intro c b hc
    rw [List.cons_append, read?_mark_cons hc, read?_mark_cons hc]
    split <;> rfl
  cases c with
  | declaration | comment | error => rfl
  | identifier =>
    rw [read?_identifier, read?_identifier, h.readName_stretch]
  | keyword =>
    rw [read?_keyword_eq, read?_keyword_eq, h.readName_stretch]
    cases hr : readName (a :: s) with
    | none => rfl
    | some cut =>
      obtain ⟨d, u, hd⟩ := List.exists_cons_of_ne_nil (h.name hr).ne_nil
      rw [Option.map_some, Option.filter_some, Option.filter_some]
      simp only [stretch, hd, List.cons_append, Text.wordEnds]
      split <;> simp [stretch, hd]
  | _ => exact mark rfl

theorem Pending.keyword?_stretch (h : k.Pending s) (w : String) :
    keyword? w (s ++ k.text) = (keyword? w s).map k.stretch := by
  unfold keyword?
  rw [h.read?_stretch]
  cases read? .keyword s with
  | none => rfl
  | some cut =>
    by_cases hw : String.ofList cut.1 = w <;> simp [Option.filter, stretch, hw]

theorem Pending.starts_stretch (h : k.Pending s) (c : Category) :
    Program.starts c (s ++ k.text) = Program.starts c s := by
  unfold Program.starts
  rw [h.read?_stretch, Option.isSome_map]

theorem Pending.sequenceEnds_stretch (h : k.Pending s) :
    sequenceEnds (s ++ k.text) = sequenceEnds s := by
  have hne : (s ++ k.text).isEmpty = false := by simp [h.ne_nil]
  simp [sequenceEnds, h.starts_stretch, h.isEmpty, hne]

theorem Pending.ruleSetEnds_stretch (h : k.Pending s) :
    ruleSetEnds (s ++ k.text) = ruleSetEnds s := by
  simp [ruleSetEnds, h.sequenceEnds_stretch, h.starts_stretch]

theorem Pending.readStray_stretch (h : k.Pending s) :
    Lexis.readStray (s ++ k.text) = (Lexis.readStray s).map k.stretch := by
  have hname := h.readName_stretch
  obtain ⟨a, s, rfl⟩ := List.exists_cons_of_ne_nil h.ne_nil
  rw [List.cons_append] at hname ⊢
  rw [Lexis.readStray, Lexis.readStray, hname]
  cases readName (a :: s) <;> rfl

theorem Pending.eq_period {a : Char} (h : k.Pending [a]) : a = '.' :=
  (List.mem_singleton.mp h.mem).symm

/-- The sequel begins no gap that the text alone does not begin. -/
theorem Pending.gap?_stretch (h : k.Pending s)
    (hs : gap? (κ := Category) (φ := Fault) s = none) :
    gap? (κ := Category) (φ := Fault) (s ++ k.text) = none := by
  -- a lone slash would begin a comment with the sequel, so the cases are by the first two characters
  match s, h, hs with
  | [], h, _ => exact absurd rfl h.ne_nil
  | [a], h, _ =>
    rw [h.eq_period]
    exact gap?_period _
  | a :: b :: u, _, hs =>
    have hblank := Lexis.not_blank_of_gap?_none hs
    have hcomment := Lexis.readComment_of_gap?_none hs
    have hmore : Lexis.readComment (a :: b :: (u ++ k.text)) = none := by
      unfold Lexis.readComment at hcomment ⊢
      split at hcomment
      · split at hcomment <;> cases hcomment
      · rename_i hne
        split
        · rename_i heq
          cases heq
          exact absurd rfl (hne _)
        · rfl
    simp [Lexis.gap?, hblank, hmore]

theorem Pending.of_scan {ps : List Piece} (h : k.Pending s) (hs : Scan recast s ps t)
    (hps : ∀ p ∈ ps, p.run ≠ ['.']) : k.Pending t := by
  induction hs with
  | nil => exact h
  | cons hp _ ih =>
    exact ih (h.step_of_ne hp (hps _ List.mem_cons_self))
      fun q hq => hps q (List.mem_cons_of_mem _ hq)

theorem Pending.gaps (h : k.Pending s) : k.Pending (gaps s).rest :=
  h.of_scan (scans_gaps s) (gap_ne_period s)

theorem Pending.gaps_stretch (h : k.Pending s) :
    Program.gaps (s ++ k.text) =
      ⟨(Program.gaps s).pieces, (Program.gaps s).rest ++ k.text, 0⟩ := by
  have hrest := h.gaps
  have hold : Lexis.gaps s = ((Program.gaps s).pieces, (Program.gaps s).rest) := rfl
  have hnew := Lexis.gaps_tail hold (hrest.head k.text) (hrest.gap?_stretch (gap?_rest_gaps s))
  rw [← List.append_assoc, (scans_gaps s).append] at hnew
  unfold Program.gaps at hnew ⊢
  rw [hnew]

theorem Pending.dropBlank (h : k.Pending s) : k.Pending (Text.dropBlank s) := by
  by_cases hs : s.takeWhile Text.isBlank = []
  · rwa [Lexis.dropBlank_of_takeWhile hs]
  · refine h.step_of_ne (.gap (Lexis.gap?_of_takeWhile hs)) ?_
    intro hrun
    have hmem : '.' ∈ s.takeWhile Text.isBlank := by
      rw [show s.takeWhile Text.isBlank = ['.'] from hrun]
      exact List.mem_singleton_self _
    exact absurd (Lexis.takeWhile_blank_all _ hmem) (by decide)

theorem Pending.dropBlank_stretch (h : k.Pending s) :
    Text.dropBlank (s ++ k.text) = Text.dropBlank s ++ k.text := by
  have hne := h.dropBlank.ne_nil
  unfold Text.dropBlank at hne ⊢
  rw [List.dropWhile_append, if_neg (by simpa using hne)]

theorem Pending.startsDeclaration_stretch (h : k.Pending s) :
    startsDeclaration (s ++ k.text) = startsDeclaration s := by
  unfold startsDeclaration
  rw [h.readName_stretch]
  cases hr : readName s with
  | none => rfl
  | some cut =>
    have hcut := h.name hr
    simp only [Option.map_some, stretch, hcut.dropBlank_stretch, hcut.dropBlank.head]

theorem gaps_blanks_rest : (Program.gaps k.blanks).rest = [] := by
  have hpast := (gaps_blanks k.blank []).1
  rw [List.append_nil] at hpast
  rw [hpast, Program.gaps, Lexis.gaps_of_none rfl]

variable (k)

def extend (r : Reading) : Reading := ⟨r.pieces, r.rest ++ k.text, r.commands⟩

/-- Both readings stop before the last period. -/
def Stays (r r' : Reading) : Prop := k.Pending r.rest ∧ r' = k.extend r

/-- Both readings have just taken the last period. -/
def Finishes (r r' : Reading) : Prop := r.rest = k.blanks ∧ r' = k.extend r

/-- Both readings stop before the last period, or one has read the whole text and the other, where
the levels that are left of `n` suffice, the sequel as well. -/
def Carries (n : Nat) (r r' : Reading) : Prop :=
  k.Stays r r' ∨ (r.rest = k.blanks ∧ (k.need ≤ n - parens r.pieces →
    r' = ⟨r.pieces ++ k.pieces, k.rest, r.commands⟩))

def Tracks (n : Nat) (f : List Char → Reading) : Prop :=
  ∀ s, k.Pending s → k.Carries n (f s) (f (s ++ k.text))

def TracksStep (n : Nat) (f : List Char → Option Reading) : Prop :=
  ∀ s, k.Pending s → Option.Rel (k.Carries n) (f s) (f (s ++ k.text))

variable {k} {n : Nat} {r r' : Reading}

theorem Pending.stays (h : k.Pending s) (ps : List Piece) (c : Nat) :
    k.Stays ⟨ps, s, c⟩ ⟨ps, s ++ k.text, c⟩ := ⟨h, rfl⟩

theorem Stays.after (h : k.Stays r r') (ps : List Piece) : k.Stays (r.after ps) (r'.after ps) := by
  obtain ⟨hr, rfl⟩ := h
  exact ⟨hr, rfl⟩

theorem Stays.commands (h : k.Stays r r') (c : Nat) :
    k.Stays { r with commands := c } { r' with commands := c } := by
  obtain ⟨hr, rfl⟩ := h
  exact ⟨hr, rfl⟩

theorem Stays.carries (h : k.Stays r r') (n : Nat) : k.Carries n r r' := Or.inl h

theorem Stays.andThen {f : List Char → Reading} (h : k.Stays r r')
    (hf : k.Stays (f r.rest) (f (r.rest ++ k.text))) :
    k.Stays (r.andThen f) (r'.andThen f) := by
  obtain ⟨hr, rfl⟩ := h
  obtain ⟨hrest, heq⟩ := hf
  refine ⟨hrest, ?_⟩
  simp only [Reading.andThen, extend, heq]

theorem Finishes.after (h : k.Finishes r r') (ps : List Piece) :
    k.Finishes (r.after ps) (r'.after ps) := by
  obtain ⟨hr, rfl⟩ := h
  exact ⟨hr, rfl⟩

theorem Carries.after (h : k.Carries n r r') (ps : List Piece) :
    k.Carries n (r.after ps) (r'.after ps) := by
  rcases h with h | ⟨hr, h⟩
  · exact Or.inl (h.after ps)
  · refine Or.inr ⟨hr, fun hn => ?_⟩
    rw [Reading.after_pieces, parens_append] at hn
    rw [h (by omega)]
    simp [Reading.after]

theorem Carries.commands (h : k.Carries n r r') (c : Nat) :
    k.Carries n { r with commands := c } { r' with commands := c } := by
  rcases h with h | ⟨hr, h⟩
  · exact Or.inl (h.commands c)
  · exact Or.inr ⟨hr, fun hn => by rw [h hn]⟩

theorem Carries.uncounted (h : k.Carries n r r') : k.Carries n r.uncounted r'.uncounted :=
  h.commands 0

/-- What is read after a reading that stops before the last period goes on side by side; where the
text has been read, nothing is read after it. -/
theorem Carries.andThen_of {f : List Char → Reading} (h : k.Carries n r r')
    (hf : k.Pending r.rest → k.Carries n (f r.rest) (f (r.rest ++ k.text))) (hi : Idle f) :
    k.Carries n (r.andThen f) (r'.andThen f) := by
  rcases h with ⟨hr, rfl⟩ | ⟨hr, h⟩
  · rcases hf hr with ⟨hrest, heq⟩ | ⟨hrest, heq⟩
    · exact Or.inl ⟨hrest, by simp only [Reading.andThen, extend, heq]⟩
    · refine Or.inr ⟨hrest, fun hn => ?_⟩
      simp only [Reading.andThen, parens_append] at hn
      simp only [Reading.andThen, extend, heq (by omega), List.append_assoc]
  · -- both have nothing left but gaps: the text alone its last blanks, the other what ends the sequel
    have hstop : f r.rest = ⟨[], r.rest, 0⟩ := hi _ (by rw [hr]; exact gaps_blanks_rest)
    refine Or.inr ⟨by rw [Reading.andThen, hstop]; exact hr, fun hn => ?_⟩
    simp only [Reading.andThen, hstop, List.append_nil] at hn
    rw [h hn]
    simp [Reading.andThen, hstop, hi _ k.ended]

theorem Carries.andThen {f : List Char → Reading} (h : k.Carries n r r') (hf : k.Tracks n f)
    (hi : Idle f) : k.Carries n (r.andThen f) (r'.andThen f) := h.andThen_of (hf _) hi

theorem many_tracks {step : List Char → Option Reading} (hsteps : StepScans step)
    (h : k.TracksStep n step) (hd : Declines step) : k.Tracks n (Reading.many step) := by
  intro s
  -- by induction on the steps of the text alone; the other reading takes one step for each of them
  refine Reading.many_induction hsteps (P := fun s r => k.Pending s →
    k.Carries n r (Reading.many step (s ++ k.text))) ?_ ?_ s
  · intro s hnone hs
    have hrel := h s hs
    rw [hnone] at hrel
    generalize hmore : step (s ++ k.text) = x at hrel
    cases hrel
    rw [Reading.many_of_none hmore]
    exact (hs.stays [] 0).carries n
  · intro s r hstep ih hs
    have hrel := h s hs
    rw [hstep] at hrel
    generalize hmore : step (s ++ k.text) = x at hrel
    cases hrel with
    | some hr =>
      rw [Reading.many_of_some hsteps hmore]
      exact hr.andThen_of ih (idle_many hd)

end Sequel

end GraphScribe.Program
