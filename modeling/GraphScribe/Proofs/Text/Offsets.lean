import GraphScribe.Text.Bytes

/-! # Offsets and prefixes

A byte offset that begins a character belongs to exactly one prefix of the text. Offsets can
therefore be compared by comparing prefixes, and the other way round. -/
namespace GraphScribe.Text

theorem byteLength_pos {s : List Char} (h : s ≠ []) : 0 < byteLength s := by
  cases s with
  | nil => exact absurd rfl h
  | cons c s =>
    have := c.utf8Size_pos
    rw [byteLength_cons]
    omega

theorem eq_nil_of_byteLength {s : List Char} (h : byteLength s = 0) : s = [] := by
  by_cases hs : s = []
  · exact hs
  · have := byteLength_pos hs
    omega

theorem dropBytes_byteLength (a x : List Char) : dropBytes (byteLength a) (a ++ x) = x := by
  induction a with
  | nil => rw [byteLength_nil, List.nil_append, dropBytes]
  | cons c a ih =>
    obtain ⟨n, hn⟩ := Nat.exists_eq_succ_of_ne_zero (Nat.ne_of_gt c.utf8Size_pos)
    have hbytes : byteLength (c :: a) = n + byteLength a + 1 := by
      rw [byteLength_cons, hn]
      omega
    have hmore : n + byteLength a + 1 - c.utf8Size = byteLength a := by omega
    rw [hbytes, List.cons_append, dropBytes, hmore, ih]

theorem prefix_of_byteLength_le {a x b y : List Char} (h : a ++ x = b ++ y)
    (hle : byteLength a ≤ byteLength b) : ∃ u, b = a ++ u ∧ x = u ++ y := by
  rcases List.append_eq_append_iff.mp h with ⟨u, hb, hx⟩ | ⟨u, ha, hy⟩
  · exact ⟨u, hb, hx⟩
  · have hlen := congrArg byteLength ha
    rw [byteLength_append] at hlen
    have hu : u = [] := eq_nil_of_byteLength (by omega)
    subst hu
    exact ⟨[], by simpa using ha.symm, by simpa using hy.symm⟩

theorem append_inj_of_byteLength {a x b y : List Char} (h : a ++ x = b ++ y)
    (hlen : byteLength a = byteLength b) : a = b ∧ x = y := by
  obtain ⟨u, rfl, rfl⟩ := prefix_of_byteLength_le h (Nat.le_of_eq hlen)
  rw [byteLength_append] at hlen
  have hu : u = [] := eq_nil_of_byteLength (by omega)
  subst hu
  simp

/-- A character that begins inside a run of the text is one of the characters of that run. -/
theorem mem_run_of_offset {pre run x before y : List Char} {c : Char}
    (h : pre ++ (run ++ x) = before ++ c :: y) (hlo : byteLength pre ≤ byteLength before)
    (hhi : byteLength before < byteLength (pre ++ run)) :
    ∃ u v, run = u ++ c :: v ∧ before = pre ++ u := by
  obtain ⟨u, hu, hx⟩ := prefix_of_byteLength_le h hlo
  subst hu
  rw [byteLength_append, byteLength_append] at hhi
  obtain ⟨v, hv, hy⟩ := prefix_of_byteLength_le hx.symm (by omega)
  cases v with
  | nil => simp [hv] at hhi
  | cons d v =>
    rw [List.cons_append] at hy
    injection hy with hd _
    exact ⟨u, v, by rw [hv, hd], rfl⟩

end GraphScribe.Text
