import GraphScribe.Lexis.Gap
import GraphScribe.Proofs.Token.Partition

/-! # Scans

A scan is a run of single readings over a text. Each reading takes one piece off the front: a blank
run or a comment where one begins, and only where none does a token or a text in error. Whatever a
language makes of its tokens, a scan loses nothing, moves at every reading, and stops a comment only
at its first closing mark. -/
namespace GraphScribe.Lexis

variable {κ φ : Type} [Lexicon κ]

def Piece.IsGap : Piece κ φ → Prop
  | .blank _ => True
  | .token c _ => c = Lexicon.comment
  | .fault _ _ => False

section Gaps

theorem takeWhile_blank_all {s : List Char} : ∀ c ∈ s.takeWhile Text.isBlank, Text.isBlank c := by
  intro c hc
  exact List.all_eq_true.mp List.all_takeWhile c hc

theorem gap?_cases {s t : List Char} {p : Piece κ φ} (h : gap? s = some (p, t)) :
    (p = .blank (s.takeWhile Text.isBlank) ∧ t = s.dropWhile Text.isBlank ∧
        s.takeWhile Text.isBlank ≠ []) ∨
      ∃ r, p = .token Lexicon.comment r ∧ readComment s = some (r, t) := by
  unfold gap? at h
  split at h
  · obtain ⟨c, hc, heq⟩ := Option.map_eq_some_iff.mp h
    cases heq
    exact Or.inr ⟨c.1, rfl, hc⟩
  · rename_i run hne
    cases h
    exact Or.inl ⟨rfl, rfl, hne⟩

theorem isGap_of_gap? {s t : List Char} {p : Piece κ φ} (h : gap? s = some (p, t)) : p.IsGap := by
  rcases gap?_cases h with ⟨rfl, _, _⟩ | ⟨r, rfl, _⟩
  · trivial
  · rfl

theorem gap?_of_blank {c : Char} {s : List Char} (h : Text.isBlank c = true) :
    gap? (κ := κ) (φ := φ) (c :: s) =
      some (.blank (c :: s.takeWhile Text.isBlank), s.dropWhile Text.isBlank) := by
  simp [gap?, h]

theorem gap?_eq_none {c : Char} {s : List Char} (hb : Text.isBlank c = false) (hc : c ≠ '/') :
    gap? (κ := κ) (φ := φ) (c :: s) = none := by
  have hr : readComment (c :: s) = none := by
    unfold readComment
    split
    · rename_i heq
      injection heq with h _
      exact absurd h hc
    · rfl
  simp [gap?, hb, hr]

theorem not_blank_of_gap?_none {c : Char} {s : List Char}
    (h : gap? (κ := κ) (φ := φ) (c :: s) = none) : Text.isBlank c = false := by
  cases hb : Text.isBlank c with
  | false => rfl
  | true =>
    rw [gap?_of_blank hb] at h
    cases h

theorem takeWhile_blank_of_gap?_none {s : List Char} (h : gap? (κ := κ) (φ := φ) s = none) :
    s.takeWhile Text.isBlank = [] := by
  cases s with
  | nil => rfl
  | cons c s => simp [not_blank_of_gap?_none h]

theorem readComment_of_gap?_none {s : List Char} (h : gap? (κ := κ) (φ := φ) s = none) :
    readComment s = none := by
  unfold gap? at h
  rw [takeWhile_blank_of_gap?_none h] at h
  exact Option.map_eq_none_iff.mp h

theorem dropBlank_of_takeWhile {s : List Char} (h : s.takeWhile Text.isBlank = []) :
    Text.dropBlank s = s := by
  have happ := List.takeWhile_append_dropWhile (p := Text.isBlank) (l := s)
  rwa [h, List.nil_append] at happ

theorem takeWhile_dropBlank (s : List Char) :
    (Text.dropBlank s).takeWhile Text.isBlank = [] := by
  have hhead := List.head?_dropWhile_not Text.isBlank s
  unfold Text.dropBlank
  cases hs : s.dropWhile Text.isBlank with
  | nil => rfl
  | cons c u =>
    rw [hs] at hhead
    have hc : Text.isBlank c = false := by simpa using hhead
    simp [hc]

theorem gaps_of_none {s : List Char} (h : gap? (κ := κ) (φ := φ) s = none) :
    gaps (κ := κ) (φ := φ) s = ([], s) := by
  rw [gaps]
  split
  · rfl
  · rename_i g hg
    rw [h] at hg
    cases hg

theorem gaps_of_some {s t : List Char} {p : Piece κ φ} (h : gap? s = some (p, t)) :
    gaps (κ := κ) (φ := φ) s = (p :: (gaps t).1, (gaps (κ := κ) (φ := φ) t).2) := by
  rw [gaps]
  split
  · rename_i hg
    rw [h] at hg
    cases hg
  · rename_i g hg
    rw [h] at hg
    cases hg
    rfl

/-- Reading all gaps ends where no gap begins. -/
theorem gap?_gaps_rest (s : List Char) :
    gap? (κ := κ) (φ := φ) (gaps (κ := κ) (φ := φ) s).2 = none := by
  induction s using gaps.induct (κ := κ) (φ := φ) with
  | case1 s h => rw [gaps_of_none h]; exact h
  | case2 s g h _ ih => rw [gaps_of_some h]; exact ih

theorem isGap_of_mem_gaps (s : List Char) :
    ∀ p ∈ (gaps (κ := κ) (φ := φ) s).1, p.IsGap := by
  induction s using gaps.induct (κ := κ) (φ := φ) with
  | case1 s h => simp [gaps_of_none h]
  | case2 s g h _ ih =>
    rw [gaps_of_some h]
    exact List.forall_mem_cons.mpr ⟨isGap_of_gap? h, ih⟩

/-- Where no gap begins after the blanks at the front, these blanks are all of the gap. -/
theorem gaps_of_dropBlank {s : List Char}
    (h : gap? (κ := κ) (φ := φ) (Text.dropBlank s) = none) :
    (gaps (κ := κ) (φ := φ) s).2 = Text.dropBlank s ∧
      ∀ p ∈ (gaps (κ := κ) (φ := φ) s).1, ∃ r, p = .blank r := by
  by_cases hs : s.takeWhile Text.isBlank = []
  · rw [dropBlank_of_takeWhile hs] at h ⊢
    simp [gaps_of_none h]
  · have hg : gap? (κ := κ) (φ := φ) s =
        some (.blank (s.takeWhile Text.isBlank), Text.dropBlank s) := by
      unfold gap?
      split
      · rename_i hnil
        exact absurd hnil hs
      · rfl
    rw [gaps_of_some hg, gaps_of_none h]
    simp

theorem gaps_of_blanks {s : List Char}
    (h : ∀ p ∈ (gaps (κ := κ) (φ := φ) s).1, ∃ r, p = .blank r) :
    (gaps (κ := κ) (φ := φ) s).2 = Text.dropBlank s := by
  cases hg : gap? (κ := κ) (φ := φ) s with
  | none => rw [gaps_of_none hg, dropBlank_of_takeWhile (takeWhile_blank_of_gap?_none hg)]
  | some g =>
    obtain ⟨p, t⟩ := g
    rw [gaps_of_some hg] at h ⊢
    rcases gap?_cases hg with ⟨_, rfl, _⟩ | ⟨r, rfl, _⟩
    · refine congrArg Prod.snd (gaps_of_none (κ := κ) (φ := φ) ?_)
      cases hd : gap? (κ := κ) (φ := φ) (s.dropWhile Text.isBlank) with
      | none => rfl
      | some d =>
        -- what follows all blanks would be a comment
        obtain ⟨q, u⟩ := d
        rw [gaps_of_some hd] at h
        rcases gap?_cases hd with ⟨_, _, hne⟩ | ⟨r, rfl, _⟩
        · exact absurd (takeWhile_dropBlank s) hne
        · obtain ⟨r', hr⟩ := h (.token Lexicon.comment r) (by simp)
          cases hr
    · obtain ⟨r', hr⟩ := h _ List.mem_cons_self
      cases hr

end Gaps

variable [DecidableEq κ]

/-- When a run at the front of a text, recognised as one category, counts as a token of another:
category recognised, category given, text, run. -/
abbrev Recast (κ : Type) := κ → κ → List Char → List Char → Prop

/-- One reading: the text before it, the piece taken, the text after it. -/
inductive Reads (as : Recast κ) : List Char → Piece κ φ → List Char → Prop where
  | gap {s t : List Char} {p : Piece κ φ} : gap? s = some (p, t) → Reads as s p t
  | token {s r t : List Char} {k c : κ} : gap? (κ := κ) (φ := φ) s = none →
      Lexicon.read? k s = some (r, t) → as k c s r → c ≠ Lexicon.comment → c ≠ Lexicon.error →
      Reads as s (.token c r) t
  | marked {s r t : List Char} {k : κ} {f : φ} : gap? (κ := κ) (φ := φ) s = none →
      Lexicon.read? k s = some (r, t) → Reads as s (.fault f r) t
  | stray {s r t : List Char} {f : φ} : gap? (κ := κ) (φ := φ) s = none →
      readStray s = some (r, t) → Reads as s (.fault f r) t

inductive Scan (as : Recast κ) : List Char → List (Piece κ φ) → List Char → Prop where
  | nil (s) : Scan as s [] s
  | cons {s p t ps u} : Reads as s p t → Scan as t ps u → Scan as s (p :: ps) u

variable {as : Recast κ}

theorem Scan.single {s t : List Char} {p : Piece κ φ} (h : Reads as s p t) : Scan as s [p] t :=
  .cons h (.nil t)

theorem Scan.trans {s t u : List Char} {ps qs : List (Piece κ φ)} (h : Scan as s ps t)
    (k : Scan as t qs u) : Scan as s (ps ++ qs) u := by
  induction h with
  | nil => exact k
  | cons hp _ ih => exact .cons hp (ih k)

theorem Scan.split {s u : List Char} {ps qs : List (Piece κ φ)} (h : Scan as s (ps ++ qs) u) :
    ∃ t, Scan as s ps t ∧ Scan as t qs u := by
  induction ps generalizing s with
  | nil => exact ⟨s, .nil s, h⟩
  | cons p ps ih =>
    cases h with
    | cons hp h =>
      obtain ⟨t, ht, hu⟩ := ih h
      exact ⟨t, .cons hp ht, hu⟩

theorem scan_gaps (s : List Char) :
    Scan as s (gaps (κ := κ) (φ := φ) s).1 (gaps (κ := κ) (φ := φ) s).2 := by
  induction s using gaps.induct (κ := κ) (φ := φ) with
  | case1 s h => rw [gaps_of_none h]; exact .nil s
  | case2 s g h _ ih => rw [gaps_of_some h]; exact .cons (.gap h) ih

theorem Reads.append {s t : List Char} {p : Piece κ φ} (h : Reads as s p t) : p.run ++ t = s := by
  cases h with
  | gap hg => exact gap?_append hg
  | token _ hr _ _ _ => exact Lexicon.read?_append hr
  | marked _ hr => exact Lexicon.read?_append hr
  | stray _ hr => exact readStray_append hr

theorem Reads.run_ne_nil {s t : List Char} {p : Piece κ φ} (h : Reads as s p t) : p.run ≠ [] := by
  cases h with
  | gap hg => exact gap?_run_ne_nil hg
  | token _ hr _ _ _ => exact Lexicon.read?_ne_nil hr
  | marked _ hr => exact Lexicon.read?_ne_nil hr
  | stray _ hr => exact readStray_ne_nil hr

theorem Reads.shorter {s t : List Char} {p : Piece κ φ} (h : Reads as s p t) :
    t.length < s.length := shorter_of_append h.append h.run_ne_nil

theorem Reads.proper {s t : List Char} {p : Piece κ φ} (h : Reads as s p t) : p.Proper := by
  have hne := h.run_ne_nil
  cases h with
  | gap hg =>
    rcases gap?_cases hg with ⟨rfl, _, _⟩ | ⟨r, rfl, _⟩
    · exact takeWhile_blank_all
    · exact hne
  | token => exact hne
  | marked => exact hne
  | stray => exact hne

theorem Reads.comment {s t r : List Char}
    (h : Reads as s (.token Lexicon.comment r : Piece κ φ) t) : readComment s = some (r, t) := by
  generalize hp : (.token Lexicon.comment r : Piece κ φ) = p at h
  cases h with
  | gap hg =>
    rcases gap?_cases hg with ⟨rfl, _, _⟩ | ⟨r, rfl, hr⟩
    · cases hp
    · cases hp
      exact hr
  | token _ _ _ hne _ =>
    cases hp
    exact absurd rfl hne
  | marked => cases hp
  | stray => cases hp

theorem Reads.mark {s t r : List Char} {c : κ} (f : φ) (hc : c ≠ Lexicon.comment)
    (h : Reads as s (.token c r : Piece κ φ) t) : Reads as s (.fault f r : Piece κ φ) t := by
  generalize hp : (.token c r : Piece κ φ) = p at h
  cases h with
  | gap hg =>
    rcases gap?_cases hg with ⟨rfl, _, _⟩ | ⟨u, rfl, _⟩
    · cases hp
    · cases hp
      exact absurd rfl hc
  | token hs hr => cases hp; exact .marked hs hr
  | marked => cases hp
  | stray => cases hp

theorem Scan.append {s u : List Char} {ps : List (Piece κ φ)} (h : Scan as s ps u) :
    Piece.text ps ++ u = s := by
  induction h with
  | nil => rfl
  | cons hp _ ih => rw [Piece.text_cons, List.append_assoc, ih, hp.append]

theorem Scan.proper {s u : List Char} {ps : List (Piece κ φ)} (h : Scan as s ps u) :
    ∀ p ∈ ps, p.Proper := by
  induction h with
  | nil => simp
  | cons hp _ ih => exact List.forall_mem_cons.mpr ⟨hp.proper, ih⟩

theorem Scan.shorter {s u : List Char} {ps : List (Piece κ φ)} (h : Scan as s ps u)
    (hne : ps ≠ []) : u.length < s.length := by
  induction h with
  | nil => exact absurd rfl hne
  | @cons s p t ps u hp k ih =>
    by_cases hps : ps = []
    · subst hps
      cases k
      exact hp.shorter
    · exact Nat.lt_trans (ih hps) hp.shorter

/-- Every piece of a scan was read off the text that it begins. -/
theorem Scan.reads_of_mem {s u : List Char} {before after : List (Piece κ φ)} {p : Piece κ φ}
    (h : Scan as s (before ++ p :: after) u) :
    Reads as (p.run ++ (Piece.text after ++ u)) p (Piece.text after ++ u) := by
  obtain ⟨t, _, ht⟩ := h.split
  cases ht with
  | cons hp hafter =>
    rw [hafter.append, hp.append]
    exact hp

end GraphScribe.Lexis
