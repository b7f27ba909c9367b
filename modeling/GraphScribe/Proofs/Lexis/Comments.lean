import GraphScribe.Lexis.Gap

/-! # Comments across lines

A line end is no part of a comment mark. The closing mark of a comment that reaches beyond a line can
therefore be searched for line by line, each search beginning anew at the line's first character. -/
namespace GraphScribe.Lexis

/-- No closing mark reaches over a character that belongs to none. -/
theorem closing?_append_cons {d : Char} (hstar : d ≠ '*') (hslash : d ≠ '/') (x v : List Char) :
    closing? (x ++ d :: v) =
      match closing? x with
      | some c => some (c.1, c.2 ++ d :: v)
      | none => (closing? v).map fun c => (x ++ d :: c.1, c.2) := by
  induction x using closing?.induct with
  | case1 =>
    have hne : ∀ rest, d = '*' → v = '/' :: rest → False := fun _ h => absurd h hstar
    have hcons : closing? (d :: v) = (closing? v).map fun c => (d :: c.1, c.2) := by
      rw [closing?]
      exact hne
    rw [List.nil_append, hcons]
    rfl
  | case2 rest => rfl
  | case3 c s hne ih =>
    have hne' : ∀ rest, c = '*' → s ++ d :: v = '/' :: rest → False := by
      intro rest hc hs
      cases s with
      | nil =>
        injection hs with hd _
        exact hslash hd
      | cons e s =>
        injection hs with he _
        exact hne s hc (by rw [he])
    rw [List.cons_append, closing?, closing?, ih]
    · cases closing? s with
      | some c => rfl
      | none => cases closing? v <;> rfl
    · exact hne
    · exact hne'

theorem closing?_of_not_infix {x : List Char} (h : ¬['*', '/'] <:+: x) :
    closing? (x ++ ['*', '/']) = some (x ++ ['*', '/'], []) := by
  induction x with
  | nil => rfl
  | cons c x ih =>
    have hne : ∀ v, c = '*' → x ++ ['*', '/'] = '/' :: v → False := by
      rintro v rfl hv
      cases x with
      | nil => cases hv
      | cons d x =>
        cases hv
        exact h ⟨[], x, rfl⟩
    have hx : ¬['*', '/'] <:+: x := fun hx => h (hx.trans (List.suffix_cons c x).isInfix)
    rw [List.cons_append, closing?, ih hx]
    · rfl
    · exact hne

theorem closing?_mark {s : List Char} {c : Cut} (h : closing? s = some c) :
    ∃ body, c.1 = body ++ ['*', '/'] := by
  induction s using closing?.induct generalizing c with
  | case1 => cases h
  | case2 rest =>
    cases h
    exact ⟨[], rfl⟩
  | case3 a s hne ih =>
    rw [closing?] at h
    · obtain ⟨r, hr, rfl⟩ := Option.map_eq_some_iff.mp h
      obtain ⟨body, hbody⟩ := ih hr
      exact ⟨a :: body, by rw [hbody, List.cons_append]⟩
    · exact hne

theorem closing?_eq_none {s : List Char} (h : ¬['*', '/'] <:+: s) : closing? s = none := by
  cases hc : closing? s with
  | none => rfl
  | some c =>
    obtain ⟨body, hbody⟩ := closing?_mark hc
    have happ := closing?_append hc
    rw [hbody] at happ
    exact absurd ⟨body, c.2, happ⟩ h

theorem closing?_getLast {s : List Char} {c : Cut} (h : closing? s = some c) :
    c.1.getLast? = some '/' := by
  obtain ⟨body, hbody⟩ := closing?_mark h
  rw [hbody]
  simp

theorem closing?_ne_nil {s : List Char} {c : Cut} (h : closing? s = some c) : c.1 ≠ [] := by
  intro hnil
  have := closing?_getLast h
  rw [hnil] at this
  cases this

/-- What a comment is: its opening mark and the text up to its first closing mark, or all the text
where there is none. -/
theorem readComment_cases {s r t : List Char} (h : readComment s = some (r, t)) :
    ∃ body, r = '/' :: '*' :: body ∧
      (closing? (body ++ t) = some (body, t) ∨ (closing? body = none ∧ t = [])) := by
  unfold readComment at h
  split at h
  · rename_i rest
    split at h
    · rename_i c hc
      cases h
      refine ⟨c.1, rfl, Or.inl ?_⟩
      rw [closing?_append hc]
      exact hc
    · rename_i hc
      cases h
      exact ⟨rest, rfl, Or.inr ⟨hc, rfl⟩⟩
  · cases h

theorem comment_getLast {s r t : List Char} (h : readComment s = some (r, t)) (ht : t ≠ []) :
    r.getLast? = some '/' := by
  obtain ⟨body, rfl, hc | ⟨_, hnil⟩⟩ := readComment_cases h
  · have := closing?_getLast hc
    rw [List.getLast?_cons_cons, List.getLast?_cons, this]
    rfl
  · exact absurd hnil ht

/-- A comment that a line end belongs to goes on to the first closing mark after that line end, or
to the end of the text. -/
theorem comment_after_line_end {u v w t : List Char} (hv : w ++ t = v)
    (h : readComment (u ++ '\n' :: v) = some (u ++ '\n' :: w, t)) :
    closing? v = some (w, t) ∨ (closing? v = none ∧ t = []) := by
  obtain ⟨body, hbody, hc⟩ := readComment_cases h
  obtain ⟨x, rfl, rfl⟩ : ∃ x, u = '/' :: '*' :: x ∧ body = x ++ '\n' :: w := by
    match u with
    | [] => cases hbody
    | [a] => cases hbody
    | a :: b :: x =>
      injection hbody with ha hbody
      injection hbody with hb hbody
      exact ⟨x, by rw [ha, hb], hbody.symm⟩
  rcases hc with hc | ⟨hc, rfl⟩
  · left
    rw [List.append_assoc, List.cons_append, hv,
      closing?_append_cons (by decide) (by decide)] at hc
    split at hc
    · rename_i c hx
      -- a closing mark before the line end would have ended the comment there
      injection hc with hc
      have happ := closing?_append hx
      have hlen := congrArg List.length (congrArg Prod.fst hc)
      have hle := congrArg List.length happ
      simp only [List.length_append, List.length_cons] at hlen hle
      omega
    · obtain ⟨c, hcv, heq⟩ := Option.map_eq_some_iff.mp hc
      injection heq with hw ht
      have hw := List.append_cancel_left hw
      injection hw with _ hw
      rw [hcv, ← hw, ← ht]
  · right
    rw [List.append_nil] at hv
    subst hv
    rw [closing?_append_cons (by decide) (by decide)] at hc
    split at hc
    · cases hc
    · exact ⟨by simpa using hc, rfl⟩

section Line

/- A line from `block` on: the return at its end, if any, and the feed with the text after it, unless
the line is the last. -/
variable {block cr tail : List Char}

theorem closing?_in_line (hcr : cr = [] ∨ cr = ['\r'])
    (htail : tail = [] ∨ ∃ more, tail = '\n' :: more) {c : Cut} (h : closing? block = some c) :
    closing? (block ++ (cr ++ tail)) = some (c.1, c.2 ++ (cr ++ tail)) := by
  rcases hcr with rfl | rfl
  · rcases htail with rfl | ⟨more, rfl⟩
    · simpa using h
    · rw [List.nil_append, closing?_append_cons (by decide) (by decide), h]
  · rw [List.singleton_append, closing?_append_cons (by decide) (by decide), h]

theorem closing?_beyond_line (hcr : cr = [] ∨ cr = ['\r'])
    (htail : tail = [] ∨ ∃ more, tail = '\n' :: more) (h : closing? block = none) {c : Cut}
    (hc : closing? (block ++ (cr ++ tail)) = some c) : ∃ x, c.1 = block ++ (cr ++ '\n' :: x) := by
  have hfeed : ∀ more, closing? ('\n' :: more) = (closing? more).map fun d => ('\n' :: d.1, d.2) :=
    closing?_append_cons (by decide) (by decide) []
  rcases hcr with rfl | rfl
  · rcases htail with rfl | ⟨more, rfl⟩
    · rw [List.nil_append, List.append_nil, h] at hc
      cases hc
    · rw [List.nil_append, closing?_append_cons (by decide) (by decide), h] at hc
      obtain ⟨d, _, rfl⟩ := Option.map_eq_some_iff.mp hc
      exact ⟨d.1, rfl⟩
  · rw [List.singleton_append, closing?_append_cons (by decide) (by decide), h] at hc
    obtain ⟨d, hd, rfl⟩ := Option.map_eq_some_iff.mp hc
    rcases htail with rfl | ⟨more, rfl⟩
    · cases hd
    · rw [hfeed] at hd
      obtain ⟨e, _, rfl⟩ := Option.map_eq_some_iff.mp hd
      exact ⟨e.1, rfl⟩

end Line

end GraphScribe.Lexis
