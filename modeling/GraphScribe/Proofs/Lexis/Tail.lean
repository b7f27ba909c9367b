import GraphScribe.Proofs.Lexis.Comments
import GraphScribe.Proofs.Lexis.Scan
import GraphScribe.Proofs.Lexis.Words

/-! # What follows a gap

A gap is read the same whatever follows it, as long as the next character stays the same and begins
no gap itself. Blanks and complete comments can be put anywhere in a gap without moving its end. -/
namespace GraphScribe.Lexis

variable {κ φ : Type} [Lexicon κ]

theorem takeWhile_run {p : Char → Bool} {run t : List Char} (hrun : ∀ c ∈ run, p c = true)
    (ht : ∀ c, t.head? = some c → p c = false) :
    (run ++ t).takeWhile p = run ∧ (run ++ t).dropWhile p = t := by
  rw [List.takeWhile_append_of_pos hrun, List.dropWhile_append_of_pos hrun]
  cases t with
  | nil => simp
  | cons c t => simp [ht c rfl]

theorem closing?_tail {x t : List Char} (h : closing? (x ++ t) = some (x, t)) (u : List Char) :
    closing? (x ++ u) = some (x, u) := by
  induction x with
  | nil => exact absurd rfl (closing?_ne_nil h)
  | cons c x ih =>
    by_cases hmark : c = '*' ∧ ∃ v, x ++ t = '/' :: v
    · obtain ⟨rfl, v, hv⟩ := hmark
      rw [List.cons_append, hv, closing?] at h
      cases h
      rfl
    · have hne : ∀ v, c = '*' → x ++ t = '/' :: v → False := fun v hc hv => hmark ⟨hc, v, hv⟩
      rw [List.cons_append, closing?] at h
      · obtain ⟨r, hr, heq⟩ := Option.map_eq_some_iff.mp h
        cases heq
        have hx := closing?_ne_nil hr
        rw [List.cons_append, closing?, ih hr]
        · rfl
        · intro v hc hv
          obtain ⟨d, x', hd⟩ := List.exists_cons_of_ne_nil hx
          rw [hd, List.cons_append] at hv hne
          cases hv
          exact hne _ hc rfl
      · exact hne

theorem readComment_closed {body : List Char} (h : closing? body = some (body, []))
    (t : List Char) : readComment ('/' :: '*' :: (body ++ t)) = some ('/' :: '*' :: body, t) := by
  have htail := closing?_tail (by rwa [List.append_nil]) t
  simp [readComment, htail]

theorem gap?_of_takeWhile {s : List Char} (h : s.takeWhile Text.isBlank ≠ []) :
    gap? (κ := κ) (φ := φ) s = some (.blank (s.takeWhile Text.isBlank), Text.dropBlank s) := by
  unfold gap?
  split
  · rename_i hnil
    exact absurd hnil h
  · rfl

/-- One blank run or comment is read the same before another tail with the same first character. -/
theorem gap?_tail {p : Piece κ φ} {t t' : List Char} (h : gap? (p.run ++ t) = some (p, t))
    (ht : t'.head? = t.head?) : gap? (p.run ++ t') = some (p, t') := by
  by_cases hnil : t = []
  · subst hnil
    rw [List.head?_nil, List.head?_eq_none_iff] at ht
    rwa [ht]
  rcases gap?_cases h with ⟨hp, hdrop, hne⟩ | ⟨r, rfl, hr⟩
  · obtain ⟨run, rfl⟩ : ∃ run, p = .blank run := ⟨_, hp⟩
    rw [Piece.run_blank] at h hp hdrop hne ⊢
    have hrun := Piece.blank.inj hp
    have hblank : ∀ c ∈ run, Text.isBlank c = true := by
      rw [hrun]
      exact takeWhile_blank_all
    have hend : ∀ c, t'.head? = some c → Text.isBlank c = false := by
      intro c hc
      have hhead := List.head?_dropWhile_not Text.isBlank (run ++ t)
      rw [ht, hdrop] at hc
      rw [hc] at hhead
      simpa using hhead
    obtain ⟨htake, hdrop'⟩ := takeWhile_run hblank hend
    rw [← hrun] at hne
    rw [gap?_of_takeWhile (by rwa [htake]), htake, Text.dropBlank, hdrop']
  · obtain ⟨body, rfl, hc | ⟨_, hc⟩⟩ := readComment_cases hr
    · have hclosed : closing? body = some (body, []) := by simpa using closing?_tail hc []
      have hread := readComment_closed hclosed t'
      rw [Piece.run_token, List.cons_append, List.cons_append]
      simp [gap?, show Text.isBlank '/' = false by decide, hread]
    · exact absurd hc hnil

theorem gaps_eq_cons {s y : List Char} {p : Piece κ φ} {ps : List (Piece κ φ)}
    (h : gaps s = (p :: ps, y)) : ∃ t, gap? s = some (p, t) ∧ gaps t = (ps, y) := by
  cases hg : gap? (κ := κ) (φ := φ) s with
  | none =>
    rw [gaps_of_none hg] at h
    cases h
  | some g =>
    obtain ⟨q, t⟩ := g
    rw [gaps_of_some hg] at h
    cases h
    exact ⟨t, rfl, rfl⟩

theorem gaps_append (s : List Char) :
    Piece.text (gaps (κ := κ) (φ := φ) s).1 ++ (gaps (κ := κ) (φ := φ) s).2 = s := by
  induction s using gaps.induct (κ := κ) (φ := φ) with
  | case1 s h => simp [gaps_of_none h]
  | case2 s g h _ ih =>
    rw [gaps_of_some h, Piece.text_cons, List.append_assoc, ih]
    exact gap?_append h

theorem gaps_tail {s y y' : List Char} {ps : List (Piece κ φ)} (h : gaps s = (ps, y))
    (hhead : y'.head? = y.head?) (hy : gap? (κ := κ) (φ := φ) y' = none) :
    gaps (Piece.text ps ++ y') = (ps, y') := by
  induction ps generalizing s with
  | nil => exact gaps_of_none hy
  | cons p ps ih =>
    obtain ⟨t, hgap, ht⟩ := gaps_eq_cons h
    have htext := gaps_append (κ := κ) (φ := φ) t
    rw [ht] at htext
    have hread := hgap
    rw [← gap?_append hgap] at hread
    have hhead' : (Piece.text ps ++ y').head? = t.head? := by
      rw [← htext, List.head?_append, List.head?_append, hhead]
    rw [Piece.text_cons, List.append_assoc, gaps_of_some (gap?_tail hread hhead'), ih ht]

section Passing

variable (κ φ)

/-- A gap that begins with the text goes on after it, whatever comes there. -/
def Passes (u : List Char) : Prop :=
  ∀ v, (gaps (κ := κ) (φ := φ) (u ++ v)).2 = (gaps (κ := κ) (φ := φ) v).2

variable {κ φ}

theorem passes_nil : Passes κ φ [] := fun _ => rfl

theorem Passes.append {u v : List Char} (hu : Passes κ φ u) (hv : Passes κ φ v) :
    Passes κ φ (u ++ v) := by
  intro w
  rw [List.append_assoc, hu, hv]

theorem gaps_dropBlank (s : List Char) :
    (gaps (κ := κ) (φ := φ) (Text.dropBlank s)).2 = (gaps (κ := κ) (φ := φ) s).2 := by
  by_cases hs : s.takeWhile Text.isBlank = []
  · rw [dropBlank_of_takeWhile hs]
  · rw [gaps_of_some (gap?_of_takeWhile hs)]

theorem dropBlank_append {run : List Char} (h : ∀ c ∈ run, Text.isBlank c = true)
    (v : List Char) : Text.dropBlank (run ++ v) = Text.dropBlank v :=
  List.dropWhile_append_of_pos h

theorem passes_blanks {run : List Char} (h : ∀ c ∈ run, Text.isBlank c = true) :
    Passes κ φ run := by
  intro v
  rw [← gaps_dropBlank, dropBlank_append h, gaps_dropBlank]

theorem gap?_comment {body : List Char} (h : closing? body = some (body, [])) (v : List Char) :
    gap? (κ := κ) (φ := φ) ('/' :: '*' :: (body ++ v)) =
      some (.token Lexicon.comment ('/' :: '*' :: body), v) := by
  simp [gap?, show Text.isBlank '/' = false by decide, readComment_closed h v]

/-- A comment that something comes after is read again before anything. -/
theorem gap?_comment_tail {s r t : List Char}
    (h : gap? (κ := κ) (φ := φ) s = some (.token Lexicon.comment r, t)) (ht : t ≠ [])
    (t' : List Char) :
    gap? (κ := κ) (φ := φ) (r ++ t') = some (.token Lexicon.comment r, t') := by
  rcases gap?_cases h with ⟨hp, _, _⟩ | ⟨_, hp, hr⟩
  · cases hp
  · cases hp
    obtain ⟨body, rfl, hc | ⟨_, hc⟩⟩ := readComment_cases hr
    · exact gap?_comment (by simpa using closing?_tail hc []) t'
    · exact absurd hc ht

theorem passes_comment {body : List Char} (h : closing? body = some (body, [])) :
    Passes κ φ ('/' :: '*' :: body) := by
  intro v
  rw [List.cons_append, List.cons_append, gaps_of_some (gap?_comment h v)]

theorem passes_of_gap? {s t : List Char} {p : Piece κ φ} (h : gap? s = some (p, t))
    (ht : t ≠ []) : Passes κ φ p.run := by
  rcases gap?_cases h with ⟨rfl, _, _⟩ | ⟨r, rfl, hr⟩
  · exact passes_blanks takeWhile_blank_all
  · obtain ⟨body, rfl, hc | ⟨_, hc⟩⟩ := readComment_cases hr
    · exact passes_comment (by simpa using closing?_tail hc [])
    · exact absurd hc ht

/-- The front part of a gap, if more of the gap or of the text comes after it. -/
theorem passes_of_gaps {s y : List Char} {ps qs : List (Piece κ φ)} (h : gaps s = (ps ++ qs, y))
    (hne : Piece.text qs ++ y ≠ []) : Passes κ φ (Piece.text ps) := by
  induction ps generalizing s with
  | nil => exact passes_nil
  | cons p ps ih =>
    obtain ⟨t, hgap, ht⟩ := gaps_eq_cons h
    have htext : Piece.text (ps ++ qs) ++ y = t := by
      have happ := gaps_append (κ := κ) (φ := φ) t
      rwa [ht] at happ
    have hnil : t ≠ [] := by
      rw [← htext, Piece.text_append, List.append_assoc]
      exact List.append_ne_nil_of_right_ne_nil _ hne
    rw [Piece.text_cons]
    exact (passes_of_gap? hgap hnil).append (ih ht)

end Passing

/-- Blanks, or a complete comment with or without blanks around it. -/
inductive Filler : List Char → Prop where
  | blanks {run : List Char} : run ≠ [] → (∀ c ∈ run, Text.isBlank c = true) → Filler run
  | comment {lead body trail : List Char} : (∀ c ∈ lead, Text.isBlank c = true) →
      closing? body = some (body, []) → (∀ c ∈ trail, Text.isBlank c = true) →
      Filler (lead ++ ('/' :: '*' :: body ++ trail))

theorem Filler.ne_nil {w : List Char} (h : Filler w) : w ≠ [] := by
  cases h with
  | blanks hne _ => exact hne
  | comment => simp

theorem Filler.passes {w : List Char} (h : Filler w) : Passes κ φ w := by
  cases h with
  | blanks _ hb => exact passes_blanks hb
  | comment hlead hbody htrail =>
    exact (passes_blanks hlead).append ((passes_comment hbody).append (passes_blanks htrail))

theorem Filler.wordEnds {w : List Char} (h : Filler w) (v : List Char) :
    Text.wordEnds (w ++ v) = true := by
  have hrun : ∀ {run t : List Char}, (∀ c ∈ run, Text.isBlank c = true) →
      Text.wordEnds t = true → Text.wordEnds (run ++ t) = true := by
    intro run t hrun ht
    cases run with
    | nil => exact ht
    | cons c run => simp [Text.wordEnds, isWordChar_of_isBlank (hrun c List.mem_cons_self)]
  cases h with
  | @blanks run hne hb =>
    obtain ⟨c, r, rfl⟩ := List.exists_cons_of_ne_nil hne
    simp [Text.wordEnds, isWordChar_of_isBlank (hb c List.mem_cons_self)]
  | comment hlead _ _ =>
    rw [List.append_assoc]
    exact hrun hlead (by simp [Text.wordEnds]; decide)

end GraphScribe.Lexis
