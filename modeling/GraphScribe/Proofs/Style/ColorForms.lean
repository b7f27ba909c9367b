import GraphScribe.Style.Color

/-! # The forms of a colour

A channel is read as a number, and the first of its two characters may be the sign of that number.
So not only `#` with six hexadecimal digits is a colour: a plus sign may stand where a channel
begins, and is printed as a zero. Texts without a plus sign are colours only in the documented form,
and every colour is read back from the text it is printed as. -/
namespace GraphScribe.Number

theorem toNat_lt_of_isHexDigit {c : Char} (h : c.isHexDigit = true) : c.toNat < 128 := by
  simp only [Char.isHexDigit, Char.isDigit, Bool.or_eq_true, Bool.and_eq_true, decide_eq_true_eq,
    ge_iff_le, UInt32.le_iff_toNat_le] at h
  rcases h with (h | h) | h
  · exact Nat.lt_of_le_of_lt h.2 (by decide)
  · exact Nat.lt_of_le_of_lt h.2 (by decide)
  · exact Nat.lt_of_le_of_lt h.2 (by decide)

theorem ne_plus_of_isHexDigit {c : Char} (h : c.isHexDigit = true) : c ≠ '+' := by
  rintro rfl
  revert h
  decide

theorem hexValue?_ascii : ∀ n < 128, (Char.ofNat n).isHexDigit = true →
    ∃ v < 16, hexValue? (Char.ofNat n) = some v ∧ Nat.digitChar v = (Char.ofNat n).toLower := by
  decide +kernel

/-- A digit has a value, which is written as the same digit in lower case. -/
theorem exists_hexValue? {c : Char} (h : c.isHexDigit = true) :
    ∃ v < 16, hexValue? c = some v ∧ Nat.digitChar v = c.toLower := by
  have hvalue := hexValue?_ascii c.toNat (toNat_lt_of_isHexDigit h)
  rw [Char.ofNat_toNat] at hvalue
  exact hvalue h

theorem isHexDigit_of_hexValue? {c : Char} {v : Nat} (h : hexValue? c = some v) :
    c.isHexDigit = true := by
  simp only [Char.isHexDigit, Char.isDigit, Bool.or_eq_true, Bool.and_eq_true, decide_eq_true_eq]
  simp only [hexValue?] at h
  split at h
  · rename_i hdigit
    exact Or.inl (Or.inl hdigit)
  · split at h
    · rename_i hlower
      exact Or.inl (Or.inr hlower)
    · split at h
      · rename_i hupper
        exact Or.inr hupper
      · cases h

theorem hexValue?_digitChar : ∀ v < 16, hexValue? (Nat.digitChar v) = some v := by decide

theorem digitChar_ne_plus : ∀ v < 16, Nat.digitChar v ≠ '+' := by decide

end GraphScribe.Number

namespace GraphScribe.Color

/-- Two hexadecimal digits, or a plus sign and one. -/
def IsChannel (high low : Char) : Prop :=
  (high.isHexDigit = true ∨ high = '+') ∧ low.isHexDigit = true

/-- What a character of a colour becomes when the colour is printed. -/
def printed (c : Char) : Char := if c = '+' then '0' else c.toLower

theorem printed_of_isHexDigit {c : Char} (h : c.isHexDigit = true) : printed c = c.toLower := by
  rw [printed, if_neg (Number.ne_plus_of_isHexDigit h)]

theorem hexPair_ofNat {high low : Nat} (hhigh : high < 16) (hlow : low < 16) :
    hexPair (UInt8.ofNat (16 * high + low)) = [Nat.digitChar high, Nat.digitChar low] := by
  have hsum : (UInt8.ofNat (16 * high + low)).toNat = 16 * high + low := by
    simp only [UInt8.toNat_ofNat']
    omega
  have hdiv : (16 * high + low) / 16 = high := by omega
  have hmod : (16 * high + low) % 16 = low := by omega
  rw [hexPair, hsum, hdiv, hmod]

theorem exists_channel? {high low : Char} (h : IsChannel high low) :
    ∃ n, channel? high low = some n ∧ hexPair n = [printed high, printed low] := by
  obtain ⟨hhigh, hlow⟩ := h
  obtain ⟨l, hl, hvalue, hchar⟩ := Number.exists_hexValue? hlow
  rw [printed_of_isHexDigit hlow, ← hchar]
  rcases hhigh with hdigit | rfl
  · obtain ⟨k, hk, hhigher, hfirst⟩ := Number.exists_hexValue? hdigit
    have hne := Number.ne_plus_of_isHexDigit hdigit
    refine ⟨UInt8.ofNat (16 * k + l), by simp [channel?, hne, hhigher, hvalue], ?_⟩
    rw [hexPair_ofNat hk hl, hfirst, printed_of_isHexDigit hdigit]
  · refine ⟨UInt8.ofNat l, by simp [channel?, hvalue], ?_⟩
    have hzero := hexPair_ofNat (show 0 < 16 by decide) hl
    rwa [Nat.mul_zero, Nat.zero_add] at hzero

theorem isChannel_of_channel? {high low : Char} {n : UInt8} (h : channel? high low = some n) :
    IsChannel high low := by
  simp only [channel?] at h
  split at h
  · rename_i hplus
    obtain ⟨l, hl, -⟩ := Option.map_eq_some_iff.mp h
    exact ⟨Or.inr hplus, Number.isHexDigit_of_hexValue? hl⟩
  · obtain ⟨k, hk, h⟩ := Option.bind_eq_some_iff.mp h
    obtain ⟨l, hl, -⟩ := Option.bind_eq_some_iff.mp h
    exact ⟨Or.inl (Number.isHexDigit_of_hexValue? hk), Number.isHexDigit_of_hexValue? hl⟩

theorem hexPair_of_channel? {high low : Char} {n : UInt8} (h : channel? high low = some n) :
    hexPair n = [printed high, printed low] := by
  obtain ⟨m, hm, hpair⟩ := exists_channel? (isChannel_of_channel? h)
  rw [h] at hm
  cases hm
  exact hpair

theorem channel?_digits (n : UInt8) :
    channel? (Nat.digitChar (n.toNat / 16)) (Nat.digitChar (n.toNat % 16)) = some n := by
  have hbound := n.toNat_lt
  have hhigh : n.toNat / 16 < 16 := by omega
  have hlow : n.toNat % 16 < 16 := by omega
  have hsum : UInt8.ofNat (16 * (n.toNat / 16) + n.toNat % 16) = n := by
    rw [Nat.div_add_mod, UInt8.ofNat_toNat]
  rw [channel?, if_neg (Number.digitChar_ne_plus _ hhigh), Number.hexValue?_digitChar _ hhigh,
    Number.hexValue?_digitChar _ hlow]
  exact congrArg some hsum

theorem ofChars?_eq_some_iff {cs : List Char} {c : Color} :
    ofChars? cs = some c ↔ ∃ r r' g g' b b', cs = ['#', r, r', g, g', b, b'] ∧
      channel? r r' = some c.red ∧ channel? g g' = some c.green ∧ channel? b b' = some c.blue := by
  constructor
  · intro h
    simp only [ofChars?] at h
    split at h
    · obtain ⟨red, hred, h⟩ := Option.bind_eq_some_iff.mp h
      obtain ⟨green, hgreen, h⟩ := Option.bind_eq_some_iff.mp h
      obtain ⟨blue, hblue, h⟩ := Option.bind_eq_some_iff.mp h
      cases h
      exact ⟨_, _, _, _, _, _, rfl, hred, hgreen, hblue⟩
    · cases h
  · rintro ⟨r, r', g, g', b, b', rfl, hred, hgreen, hblue⟩
    simp [ofChars?, hred, hgreen, hblue]

theorem ofString_eq_ok_iff {s : String} {c : Color} :
    ofString s = .ok c ↔ ofChars? s.toList = some c := by
  rw [ofString]
  cases ofChars? s.toList <;> simp

def IsHexForm (s : String) : Prop :=
  ∃ ds, s.toList = '#' :: ds ∧ ds.length = 6 ∧ ∀ d ∈ ds, d.isHexDigit = true

/-- The form of three channels, each of which may have a sign. -/
def IsSignedForm (s : String) : Prop :=
  ∃ r r' g g' b b', s.toList = ['#', r, r', g, g', b, b'] ∧
    IsChannel r r' ∧ IsChannel g g' ∧ IsChannel b b'

theorem isHexForm_iff {s : String} : IsHexForm s ↔ IsSignedForm s ∧ '+' ∉ s.toList := by
  constructor
  · rintro ⟨ds, hs, hlength, hdigits⟩
    obtain ⟨r, r', g, g', b, b', rfl⟩ : ∃ r r' g g' b b', ds = [r, r', g, g', b, b'] := by
      match ds, hlength with
      | [r, r', g, g', b, b'], _ => exact ⟨r, r', g, g', b, b', rfl⟩
    have hplus : '+' ∉ s.toList := by
      rw [hs]
      intro hmem
      have hdigit := hdigits '+' ((List.mem_cons.mp hmem).resolve_left (by decide))
      exact Number.ne_plus_of_isHexDigit hdigit rfl
    simp only [List.forall_mem_cons] at hdigits
    obtain ⟨hr, hr', hg, hg', hb, hb', -⟩ := hdigits
    exact ⟨⟨r, r', g, g', b, b', hs, ⟨.inl hr, hr'⟩, ⟨.inl hg, hg'⟩, ⟨.inl hb, hb'⟩⟩, hplus⟩
  · rintro ⟨⟨r, r', g, g', b, b', hs, ⟨hr, hr'⟩, ⟨hg, hg'⟩, hb, hb'⟩, hplus⟩
    have hunsigned : ∀ d, (d.isHexDigit = true ∨ d = '+') → d ∈ s.toList → d.isHexDigit = true := by
      rintro d (hd | rfl) hmem
      · exact hd
      · exact absurd hmem hplus
    refine ⟨[r, r', g, g', b, b'], hs, rfl, ?_⟩
    simp only [List.forall_mem_cons]
    exact ⟨hunsigned r hr (by simp [hs]), hr', hunsigned g hg (by simp [hs]), hg',
      hunsigned b hb (by simp [hs]), hb', by simp⟩

theorem exists_ofString_iff {s : String} : (∃ c, ofString s = .ok c) ↔ IsSignedForm s := by
  constructor
  · rintro ⟨c, h⟩
    obtain ⟨r, r', g, g', b, b', hs, hred, hgreen, hblue⟩ :=
      ofChars?_eq_some_iff.mp (ofString_eq_ok_iff.mp h)
    exact ⟨r, r', g, g', b, b', hs, isChannel_of_channel? hred, isChannel_of_channel? hgreen,
      isChannel_of_channel? hblue⟩
  · rintro ⟨r, r', g, g', b, b', hs, hred, hgreen, hblue⟩
    obtain ⟨red, hred, -⟩ := exists_channel? hred
    obtain ⟨green, hgreen, -⟩ := exists_channel? hgreen
    obtain ⟨blue, hblue, -⟩ := exists_channel? hblue
    exact ⟨⟨red, green, blue⟩, ofString_eq_ok_iff.mpr
      (ofChars?_eq_some_iff.mpr ⟨r, r', g, g', b, b', hs, hred, hgreen, hblue⟩)⟩

/-- A colour is printed as the text it was read from, in lower case and with zeros for the signs. -/
theorem toString_of_ofString {s : String} {c : Color} (h : ofString s = .ok c) :
    c.toString = s.map printed := by
  obtain ⟨r, r', g, g', b, b', hs, hred, hgreen, hblue⟩ :=
    ofChars?_eq_some_iff.mp (ofString_eq_ok_iff.mp h)
  have hmark : printed '#' = '#' := by decide
  apply String.toList_inj.mp
  simp [toString, hs, hmark, hexPair_of_channel? hred, hexPair_of_channel? hgreen,
    hexPair_of_channel? hblue]

theorem ofString_toString (c : Color) : ofString c.toString = .ok c := by
  refine ofString_eq_ok_iff.mpr (ofChars?_eq_some_iff.mpr ⟨_, _, _, _, _, _, ?_,
    channel?_digits c.red, channel?_digits c.green, channel?_digits c.blue⟩)
  simp [toString, hexPair]

theorem map_printed_eq_iff {s : String} : s.map printed = s.toLower ↔ '+' ∉ s.toList := by
  have hsign : ∀ d, printed d = d.toLower ↔ d ≠ '+' := by
    intro d
    by_cases hd : d = '+'
    · subst hd
      decide
    · simp [printed, hd]
  change s.map printed = s.map Char.toLower ↔ '+' ∉ s.toList
  rw [← String.toList_inj, String.toList_map, String.toList_map, List.map_inj_left]
  simp only [hsign]
  exact ⟨fun h hmem => h '+' hmem rfl, fun h d hd heq => h (heq ▸ hd)⟩

/-- The texts that are read, what they are printed as, and how far they go beyond the documented
form: exactly the texts of that form come back in lower case, and the others have a sign. -/
theorem ofString_forms (s : String) (c : Color) :
    ((∃ d, ofString s = .ok d) ↔ IsSignedForm s) ∧
      (ofString s = .ok c ↔ IsSignedForm s ∧ c.toString = s.map printed) ∧
      (IsHexForm s ↔ ∃ d, ofString s = .ok d ∧ d.toString = s.toLower) ∧
      (IsHexForm s ↔ (∃ d, ofString s = .ok d) ∧ '+' ∉ s.toList) ∧
      ofString c.toString = .ok c := by
  refine ⟨exists_ofString_iff, ⟨?_, ?_⟩, ⟨?_, ?_⟩, ?_, ofString_toString c⟩
  · intro h
    exact ⟨exists_ofString_iff.mp ⟨c, h⟩, toString_of_ofString h⟩
  · rintro ⟨hform, hprint⟩
    obtain ⟨d, hd⟩ := exists_ofString_iff.mpr hform
    have hsame := ofString_toString c
    rw [hprint, ← toString_of_ofString hd, ofString_toString] at hsame
    rw [hd, hsame]
  · intro h
    obtain ⟨hform, hplus⟩ := isHexForm_iff.mp h
    obtain ⟨d, hd⟩ := exists_ofString_iff.mpr hform
    exact ⟨d, hd, (toString_of_ofString hd).trans (map_printed_eq_iff.mpr hplus)⟩
  · rintro ⟨d, hd, hprint⟩
    rw [toString_of_ofString hd, map_printed_eq_iff] at hprint
    exact isHexForm_iff.mpr ⟨exists_ofString_iff.mp ⟨d, hd⟩, hprint⟩
  · rw [exists_ofString_iff]
    exact isHexForm_iff

/-- Signs are read, though no digits. -/
theorem ofString_signed :
    ofString "#+f+f+f" = .ok ⟨0x0f, 0x0f, 0x0f⟩ ∧ ¬IsHexForm "#+f+f+f" := by
  refine ⟨ofString_eq_ok_iff.mpr (by decide), ?_⟩
  rw [isHexForm_iff]
  rintro ⟨-, hplus⟩
  exact hplus (by decide)

end GraphScribe.Color
