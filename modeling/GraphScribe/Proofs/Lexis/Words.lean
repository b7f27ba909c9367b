import GraphScribe.Lexis.Lexicon
import GraphScribe.Text.Blank

/-! # Names, words and marks

A name is read to its last letter, digit or underscore. A keyword is a name that is listed and that
no word character follows, so of two keywords at one place only one can be read. A lexicon reads for
a category what the category's pattern reads, for no pattern reads an empty text. -/
namespace GraphScribe.Lexis

def NameShaped : List Char → Prop
  | [] => False
  | c :: cs => isNameStart c = true ∧ ∀ d ∈ cs, isNamePart d = true

/-- A name that ends here is not cut short. -/
def NameEnds (t : List Char) : Prop := ∀ c, t.head? = some c → isNamePart c = false

instance (s : List Char) : Decidable (NameShaped s) :=
  match s with
  | [] => isFalse id
  | c :: cs => decidable_of_iff (isNameStart c = true ∧ cs.all isNamePart = true)
      (by simp [NameShaped])

theorem isNamePart_of_isNameStart {c : Char} (h : isNameStart c = true) : isNamePart c = true := by
  simp only [isNameStart, isNamePart, Char.isAlphanum, Bool.or_eq_true] at h ⊢
  rcases h with h | h
  · exact Or.inl (Or.inl h)
  · exact Or.inr h

theorem isNamePart_of_isDigit {a : Char} (ha : a.isDigit = true) : isNamePart a = true := by
  simp [isNamePart, Char.isAlphanum, ha]

theorem not_isNameStart_of_isDigit {a : Char} (ha : a.isDigit = true) : isNameStart a = false := by
  apply Bool.eq_false_iff.mpr
  intro hstart
  unfold isNameStart Char.isAlpha Char.isUpper Char.isLower at hstart
  unfold Char.isDigit at ha
  simp only [Bool.or_eq_true, Bool.and_eq_true, decide_eq_true_eq, beq_iff_eq, ge_iff_le,
    UInt32.le_iff_toNat_le] at hstart ha
  have hcode : 48 ≤ a.val.toNat ∧ a.val.toNat ≤ 57 := ha
  rcases hstart with (h | h) | rfl
  · have hupper : 65 ≤ a.val.toNat := h.1
    omega
  · have hlower : 97 ≤ a.val.toNat := h.1
    omega
  · revert hcode
    decide

theorem toNat_lt_of_isNamePart {c : Char} (h : isNamePart c = true) : c.toNat < 128 := by
  unfold isNamePart Char.isAlphanum Char.isAlpha Char.isUpper Char.isLower Char.isDigit at h
  simp only [Bool.or_eq_true, Bool.and_eq_true, decide_eq_true_eq, beq_iff_eq] at h
  rcases h with ((h | h) | h) | rfl
  · have := UInt32.le_iff_toNat_le.mp h.2
    exact Nat.lt_of_le_of_lt this (by decide)
  · have := UInt32.le_iff_toNat_le.mp h.2
    exact Nat.lt_of_le_of_lt this (by decide)
  · have := UInt32.le_iff_toNat_le.mp h.2
    exact Nat.lt_of_le_of_lt this (by decide)
  · decide

theorem isWordChar_of_lt {c : Char} (h : c.toNat < 128) : Text.isWordChar c = isNamePart c := by
  simp [Text.isWordChar, isNamePart, h]

theorem isWordChar_of_isNamePart {c : Char} (h : isNamePart c = true) :
    Text.isWordChar c = true := by
  rw [isWordChar_of_lt (toNat_lt_of_isNamePart h)]
  exact h

def blankCodes : List Nat :=
  [0x20, 0x9, 0xA, 0xB, 0xC, 0xD, 0x85, 0xA0, 0x1680, 0x2000, 0x2001, 0x2002, 0x2003, 0x2004,
    0x2005, 0x2006, 0x2007, 0x2008, 0x2009, 0x200A, 0x2028, 0x2029, 0x202F, 0x205F, 0x3000]

theorem mem_blankCodes {c : Char} (h : Text.isBlank c = true) : c.toNat ∈ blankCodes := by
  simp only [Text.isBlank, Bool.or_eq_true, Bool.and_eq_true, beq_iff_eq, decide_eq_true_eq] at h
  simp only [blankCodes, List.mem_cons, List.not_mem_nil, or_false]
  omega

theorem blankCodes_not_word : blankCodes.all (fun n =>
    !(if n < 128 then (Char.ofNat n).isAlphanum || Char.ofNat n == '_'
      else Text.wordRanges.any fun r => r.1 ≤ n && n ≤ r.2)) = true := by
  decide +kernel

theorem isWordChar_of_isBlank {c : Char} (h : Text.isBlank c = true) :
    Text.isWordChar c = false := by
  have hn := List.all_eq_true.mp blankCodes_not_word _ (mem_blankCodes h)
  rw [Char.ofNat_toNat] at hn
  simpa only [Text.isWordChar, Bool.not_eq_true'] using hn

theorem not_blank_of_isWordChar {c : Char} (h : Text.isWordChar c = true) :
    Text.isBlank c = false := by
  cases hb : Text.isBlank c with
  | false => rfl
  | true =>
    rw [isWordChar_of_isBlank hb] at h
    cases h

theorem nameEnds_of_wordEnds {t : List Char} (h : Text.wordEnds t = true) : NameEnds t := by
  intro c hc
  cases t with
  | nil => cases hc
  | cons d t =>
    cases hc
    cases hp : isNamePart c with
    | false => rfl
    | true => simp [Text.wordEnds, isWordChar_of_isNamePart hp] at h

theorem readName_eq_some_iff {s r t : List Char} :
    readName s = some (r, t) ↔ NameShaped r ∧ NameEnds t ∧ s = r ++ t := by
  constructor
  · intro h
    have happ := readName_append h
    cases s with
    | nil => cases h
    | cons c s =>
      simp only [readName] at h
      split at h
      · rename_i hstart
        cases h
        refine ⟨⟨hstart, fun d hd => List.all_eq_true.mp List.all_takeWhile d hd⟩, ?_, happ.symm⟩
        intro d hd
        have := List.head?_dropWhile_not isNamePart s
        rw [hd] at this
        simpa using this
      · cases h
  · rintro ⟨hr, ht, rfl⟩
    cases r with
    | nil => exact hr.elim
    | cons c r =>
      have htake : (r ++ t).takeWhile isNamePart = r := by
        rw [List.takeWhile_append_of_pos hr.2]
        cases t with
        | nil => simp
        | cons d t => simp [ht d rfl]
      have hdrop : (r ++ t).dropWhile isNamePart = t := by
        rw [List.dropWhile_append_of_pos hr.2]
        cases t with
        | nil => rfl
        | cons d t => simp [ht d rfl]
      simp [readName, hr.1, htake, hdrop]

theorem readName_eq_none {c : Char} {s : List Char} (h : isNameStart c = false) :
    readName (c :: s) = none := by
  simp [readName, h]

theorem cut?_eq_some_iff {lead s r t : List Char} :
    cut? lead s = some (r, t) ↔ r = lead ∧ s = lead ++ t := by
  constructor
  · intro h
    have happ := cut?_append h
    simp only [cut?] at h
    split at h
    · cases h
      exact ⟨rfl, happ.symm⟩
    · cases h
  · rintro ⟨rfl, rfl⟩
    simp [cut?]

/-- A listed word is read exactly where the whole name there is that word and the word ends. -/
theorem readWord_eq_some_iff {choices : List String} (hc : ∀ w ∈ choices, NameShaped w.toList)
    {s r t : List Char} : readWord choices s = some (r, t) ↔
      readName s = some (r, t) ∧ String.ofList r ∈ choices ∧ Text.wordEnds t = true := by
  have sound : ∀ {r t}, readWord choices s = some (r, t) →
      readName s = some (r, t) ∧ String.ofList r ∈ choices ∧ Text.wordEnds t = true := by
    intro r t h
    obtain ⟨w, hw, hcut⟩ := List.exists_of_findSome?_eq_some h
    obtain ⟨hcut, hend⟩ := Option.filter_eq_some_iff.mp hcut
    obtain ⟨rfl, hs⟩ := cut?_eq_some_iff.mp hcut
    refine ⟨readName_eq_some_iff.mpr ⟨hc w hw, nameEnds_of_wordEnds hend, hs⟩, ?_, hend⟩
    rwa [String.ofList_toList]
  constructor
  · exact sound
  · rintro ⟨hname, hmem, hend⟩
    have hcut : cut? (String.ofList r).toList s = some (r, t) := by
      rw [String.toList_ofList]
      exact cut?_eq_some_iff.mpr ⟨rfl, (readName_append hname).symm⟩
    cases hw : readWord choices s with
    | none =>
      have hnone := List.findSome?_eq_none_iff.mp hw _ hmem
      rw [hcut] at hnone
      simp [hend] at hnone
    | some cut =>
      have hs := (sound hw).1
      rw [hname] at hs
      exact hs.symm

theorem readSymbol_single {a : Char} {s r t : List Char} :
    readSymbol [String.singleton a] s = some (r, t) ↔ r = [a] ∧ s = a :: t := by
  simp [readSymbol, cut?_eq_some_iff]

theorem readDigits_ne_nil {sign s : List Char} {c : Cut} (h : readDigits sign s = some c) :
    c.1 ≠ [] := by
  simp only [readDigits] at h
  split at h
  · cases h
  · rename_i hne
    cases h
    intro hnil
    exact hne (List.append_eq_nil_iff.mp hnil).2

theorem readNumber_ne_nil {s : List Char} {c : Cut} (h : readNumber s = some c) : c.1 ≠ [] := by
  unfold readNumber at h
  split at h
  · exact readDigits_ne_nil h
  · exact readDigits_ne_nil h

theorem readQuotation_ne_nil {s : List Char} {c : Cut} (h : readQuotation s = some c) :
    c.1 ≠ [] := by
  unfold readQuotation at h
  split at h
  · split at h
    · cases h
      exact List.cons_ne_nil _ _
    · cases h
  · cases h

theorem readDigits_none {sign s : List Char} (h : ∀ c, s.head? = some c → c.isDigit = false) :
    readDigits sign s = none := by
  cases s with
  | nil => rfl
  | cons c s => simp [readDigits, h c rfl]

theorem readNumber_of_ne {a : Char} {s : List Char} (ha : a ≠ '-') :
    readNumber (a :: s) = readDigits [] (a :: s) := by
  unfold readNumber
  split
  · rename_i heq
    cases heq
    exact absurd rfl ha
  · rfl

/-- A number begins with a digit or with a minus sign that a digit follows. -/
theorem readNumber_none {a : Char} {s : List Char} (ha : a.isDigit = false)
    (hs : a = '-' → ∀ c, s.head? = some c → c.isDigit = false) : readNumber (a :: s) = none := by
  by_cases hminus : a = '-'
  · subst hminus
    exact readDigits_none (hs rfl)
  · rw [readNumber_of_ne hminus]
    apply readDigits_none
    rintro c ⟨⟩
    exact ha

theorem readQuotation_none {a : Char} {s : List Char} (ha : a ≠ '"') :
    readQuotation (a :: s) = none := by
  unfold readQuotation
  split
  · rename_i heq
    cases heq
    exact absurd rfl ha
  · rfl

section Lexicon

variable {κ : Type} [DecidableEq κ] [Lexicon κ] {c : κ} {s r t : List Char}

theorem filter_nonempty {cut : Option Cut} (h : ∀ c, cut = some c → c.1 ≠ []) :
    cut.filter (fun c => !c.1.isEmpty) = cut := by
  cases cut with
  | none => rfl
  | some c => simp [h c rfl]

theorem read?_of_pattern {p : Pattern} (hc : Lexicon.pattern? c = some p) :
    Lexicon.read? c s = p.read s := by
  unfold Lexicon.read?
  rw [hc]
  rfl

theorem read?_name (hc : Lexicon.pattern? c = some .name) : Lexicon.read? c s = readName s :=
  (read?_of_pattern hc).trans (filter_nonempty fun _ => readName_ne_nil)

theorem read?_number (hc : Lexicon.pattern? c = some .number) :
    Lexicon.read? c s = readNumber s :=
  (read?_of_pattern hc).trans (filter_nonempty fun _ => readNumber_ne_nil)

theorem read?_quotation (hc : Lexicon.pattern? c = some .quotation) :
    Lexicon.read? c s = readQuotation s :=
  (read?_of_pattern hc).trans (filter_nonempty fun _ => readQuotation_ne_nil)

theorem read?_word {choices : List String} (hc : Lexicon.pattern? c = some (.word choices))
    (hshape : ∀ w ∈ choices, NameShaped w.toList) : Lexicon.read? c s = some (r, t) ↔
      readName s = some (r, t) ∧ String.ofList r ∈ choices ∧ Text.wordEnds t = true := by
  have hne : ∀ cut, readWord choices s = some cut → cut.1 ≠ [] := by
    intro cut hcut
    exact readName_ne_nil ((readWord_eq_some_iff hshape).mp hcut).1
  have hread : Lexicon.read? c s = readWord choices s :=
    (read?_of_pattern hc).trans (filter_nonempty hne)
  rw [hread, readWord_eq_some_iff hshape]

theorem read?_symbol {choices : List String} (hc : Lexicon.pattern? c = some (.symbol choices))
    (hne : ∀ w ∈ choices, w.toList ≠ []) : Lexicon.read? c s = readSymbol choices s := by
  refine (read?_of_pattern hc).trans (filter_nonempty ?_)
  rintro ⟨r, t⟩ h
  obtain ⟨w, hw, hcut⟩ := List.exists_of_findSome?_eq_some h
  rw [(cut?_eq_some_iff.mp hcut).1]
  exact hne w hw

theorem read?_single {a : Char}
    (hc : Lexicon.pattern? c = some (.symbol [String.singleton a])) :
    Lexicon.read? c s = some (r, t) ↔ r = [a] ∧ s = a :: t := by
  rw [read?_symbol hc (by simp), readSymbol_single]

theorem read?_only {w : String} (hc : Lexicon.pattern? c = some (.symbol [w]))
    (hw : w.toList ≠ []) :
    Lexicon.read? c s = some (r, t) ↔ r = w.toList ∧ s = w.toList ++ t := by
  have hcut : readSymbol [w] s = cut? w.toList s := by
    cases h : cut? w.toList s <;> simp [readSymbol, h]
  rw [read?_symbol hc (by simpa using hw), hcut, cut?_eq_some_iff]

theorem read?_symbol_none {choices : List String}
    (hc : Lexicon.pattern? c = some (.symbol choices)) (h : ∀ w ∈ choices, ¬w.toList <+: s) :
    Lexicon.read? c s = none := by
  have hnone : readSymbol choices s = none := by
    apply List.findSome?_eq_none_iff.mpr
    intro w hw
    cases hcut : cut? w.toList s with
    | none => rfl
    | some cut => exact absurd ⟨cut.2, (cut?_eq_some_iff.mp hcut).2.symm⟩ (h w hw)
  rw [read?_of_pattern hc, Pattern.read]
  simp only [hnone]
  rfl

end Lexicon

end GraphScribe.Lexis
