import GraphScribe.Text.Lines

/-! # Cutting a text into lines

A text either has no line feed and is one line, or it begins with a line, a line feed and the rest.
Facts about all lines of a text go by induction over these two cases. -/
namespace GraphScribe.Text

theorem lines_of_no_feed {s : List Char} (h : '\n' ∉ s) : lines s = [s] := by
  induction s with
  | nil => rfl
  | cons c s ih =>
    have hc : c ≠ '\n' := fun hc => h (by simp [hc])
    have hs : '\n' ∉ s := fun hs => h (List.mem_cons_of_mem c hs)
    simp [lines, hc, ih hs]

theorem lines_append_feed {l : List Char} (h : '\n' ∉ l) (rest : List Char) :
    lines (l ++ '\n' :: rest) = l :: lines rest := by
  induction l with
  | nil => rfl
  | cons c l ih =>
    have hc : c ≠ '\n' := fun hc => h (by simp [hc])
    have hl : '\n' ∉ l := fun hl => h (List.mem_cons_of_mem c hl)
    simp [lines, hc, ih hl]

/-- Holds of a text if it holds of the last line and is carried back over a line and its feed. -/
theorem lines_induction {P : List Char → Prop} (last : ∀ l, '\n' ∉ l → P l)
    (next : ∀ l rest, '\n' ∉ l → P rest → P (l ++ '\n' :: rest)) (s : List Char) : P s := by
  induction hn : s.length using Nat.strongRecOn generalizing s with
  | ind n ih =>
    by_cases h : '\n' ∈ s
    · obtain ⟨l, rest, rfl, hl⟩ := List.eq_append_cons_of_mem h
      refine next l rest hl (ih rest.length ?_ rest rfl)
      rw [← hn, List.length_append, List.length_cons]
      omega
    · exact last s h

theorem dropReturn_append (line : List Char) :
    ∃ cr, (cr = [] ∨ cr = ['\r']) ∧ line = dropReturn line ++ cr := by
  unfold dropReturn
  split
  · rename_i hlast
    obtain ⟨x, rfl⟩ := List.getLast?_eq_some_iff.mp hlast
    exact ⟨['\r'], Or.inr rfl, by rw [List.dropLast_concat]⟩
  · exact ⟨[], Or.inl rfl, by rw [List.append_nil]⟩

theorem placeLines_lines (start : Nat) (s : List Char) :
    ∃ block more, placeLines start (lines s) = (start, block) :: more := by
  by_cases h : '\n' ∈ s
  · obtain ⟨l, rest, rfl, hl⟩ := List.eq_append_cons_of_mem h
    rw [lines_append_feed hl]
    exact ⟨_, _, rfl⟩
  · rw [lines_of_no_feed h]
    exact ⟨_, _, rfl⟩

end GraphScribe.Text
