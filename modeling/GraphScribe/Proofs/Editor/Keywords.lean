import GraphScribe.Proofs.Condition.Lexemes
import GraphScribe.Proofs.Program.Lexemes

/-! # Keywords are whole names

A keyword is read where the longest name is one of the words and no word character follows it, so
the patterns of keywords and of names cut off the same text. No other pattern of a language reads a
text that begins like a name: which of the two categories a word gets is decided by the order of the
table alone, and both tables list the keywords first. -/
namespace GraphScribe

open Lexis (Pattern Cut NameShaped NameEnds isNameStart isNamePart readName)

namespace Lexis

def IsLongestName (r s : List Char) : Prop :=
  NameShaped r ∧ r <+: s ∧ ∀ q, NameShaped q → q <+: s → q.length ≤ r.length

theorem NameShaped.snoc {r : List Char} {d : Char} (hr : NameShaped r)
    (hd : isNamePart d = true) : NameShaped (r ++ [d]) := by
  cases r with
  | nil => exact hr.elim
  | cons c r =>
    refine ⟨hr.1, fun e he => ?_⟩
    rcases List.mem_append.mp he with he | he
    · exact hr.2 e he
    · rwa [List.mem_singleton.mp he]

/-- No name goes on past the place where a name ends. -/
theorem NameShaped.length_le {r t q : List Char} (hr : NameShaped r) (ht : NameEnds t)
    (hq : NameShaped q) (hfront : q <+: r ++ t) : q.length ≤ r.length := by
  rcases List.prefix_or_prefix_of_prefix hfront (List.prefix_append r t) with hle | ⟨u, rfl⟩
  · exact hle.length_le
  · cases u with
    | nil => simp
    | cons d u =>
      obtain ⟨v, hv⟩ := (List.prefix_append_right_inj r).mp hfront
      have hend : isNamePart d = false := ht d (by rw [← hv]; rfl)
      cases r with
      | nil => exact hr.elim
      | cons c r =>
        have hpart : isNamePart d = true := hq.2 d (by simp)
        rw [hend] at hpart
        cases hpart

theorem readName_eq_some_iff_longest {s r t : List Char} :
    readName s = some (r, t) ↔ s = r ++ t ∧ IsLongestName r s := by
  rw [readName_eq_some_iff]
  constructor
  · rintro ⟨hr, ht, rfl⟩
    exact ⟨rfl, hr, List.prefix_append r t, fun q => hr.length_le ht⟩
  · rintro ⟨rfl, hr, -, hlongest⟩
    refine ⟨hr, fun d hd => ?_, rfl⟩
    obtain ⟨u, rfl⟩ := List.head?_eq_some_iff.mp hd
    apply Bool.eq_false_iff.mpr
    intro hpart
    have hlonger := hlongest (r ++ [d]) (hr.snoc hpart) ⟨u, by simp⟩
    rw [List.length_append] at hlonger
    exact absurd hlonger (Nat.not_succ_le_self _)

theorem wordEnds_iff {t : List Char} :
    Text.wordEnds t = true ↔ ∀ c, t.head? = some c → Text.isWordChar c = false := by
  cases t <;> simp [Text.wordEnds]

/-- No text of the pattern begins with a letter or an underscore. -/
def Pattern.BeginsApart : Pattern → Prop
  | .word _ | .name => False
  | .number | .quotation => True
  | .symbol choices => ∀ w ∈ choices, w.toList.head?.any isNameStart = false

instance (p : Pattern) : Decidable p.BeginsApart :=
  match p with
  | .word _ | .name => isFalse id
  | .number | .quotation => isTrue trivial
  | .symbol choices =>
    inferInstanceAs (Decidable (∀ w ∈ choices, w.toList.head?.any isNameStart = false))

theorem ne_of_isNameStart {a b : Char} (ha : isNameStart a = true) (hb : isNameStart b = false) :
    a ≠ b := by
  rintro rfl
  rw [hb] at ha
  cases ha

theorem Pattern.BeginsApart.read_cons {p : Pattern} (hp : p.BeginsApart) {a : Char}
    {s : List Char} (ha : isNameStart a = true) : p.read (a :: s) = none := by
  cases hread : p.read (a :: s) with
  | none => rfl
  | some cut =>
    have hne := Pattern.read_ne_nil hread
    have hcut := (Option.filter_eq_some_iff.mp hread).1
    cases p with
    | word | name => exact hp.elim
    | number =>
      have hdigit : a.isDigit = false := by
        apply Bool.eq_false_iff.mpr
        intro hdigit
        rw [not_isNameStart_of_isDigit hdigit] at ha
        cases ha
      have hnone := readNumber_none (s := s) hdigit fun h => absurd h (ne_of_isNameStart ha rfl)
      cases hcut.symm.trans hnone
    | quotation =>
      have hnone := readQuotation_none (s := s) (ne_of_isNameStart ha rfl)
      cases hcut.symm.trans hnone
    | symbol choices =>
      obtain ⟨w, hw, hlead⟩ := List.exists_of_findSome?_eq_some hcut
      obtain ⟨r, t⟩ := cut
      obtain ⟨rfl, hs⟩ := cut?_eq_some_iff.mp hlead
      obtain ⟨b, u, hw'⟩ : ∃ b u, w.toList = b :: u := List.exists_cons_of_ne_nil hne
      rw [hw'] at hs
      cases hs
      have hapart : w.toList.head?.any isNameStart = false := hp w hw
      rw [hw', List.head?_cons, Option.any_some, ha] at hapart
      cases hapart

theorem Pattern.BeginsApart.read_eq_none {p : Pattern} (hp : p.BeginsApart) {s r t : List Char}
    (h : readName s = some (r, t)) : p.read s = none := by
  obtain ⟨hr, -, rfl⟩ := readName_eq_some_iff.mp h
  cases r with
  | nil => exact hr.elim
  | cons a r => exact hp.read_cons hr.1

end Lexis

namespace Lexicon

variable {κ : Type} [DecidableEq κ] [L : Lexicon κ]

def readInOrder (entries : List (κ × Pattern)) (accept : κ → Bool) (s : List Char) :
    Option (κ × Cut) :=
  @readAny? κ { L with table := entries } accept s

def wordCategories (keyword name : κ) (entries : List (κ × Pattern)) : List κ :=
  (entries.map (·.1)).filter fun c => c = keyword ∨ c = name

/-- The keywords are the longest names that are among the words and that no word character follows.
They are cut off as names are, and nothing else can be read there: whatever the order in which the
categories are tried, the first one of these two that is accepted is taken, and the table lists the
keywords first. -/
structure WholeWords (keyword name : κ) (words : List String) : Prop where
  keyword_iff : ∀ s r t, read? keyword s = some (r, t) ↔ s = r ++ t ∧ Lexis.IsLongestName r s ∧
    String.ofList r ∈ words ∧ ∀ c, t.head? = some c → Text.isWordChar c = false
  name_iff : ∀ s r t, read? name s = some (r, t) ↔ s = r ++ t ∧ Lexis.IsLongestName r s
  same_cut : ∀ s cut, read? keyword s = some cut → read? name s = some cut
  in_order : ∀ s cut, read? keyword s = some cut → ∀ entries : List (κ × Pattern),
    entries.Perm table → ∀ accept, readInOrder entries accept s =
      ((wordCategories keyword name entries).find? accept).map fun c => (c, cut)
  in_table : ∀ s cut, read? keyword s = some cut → ∀ accept, readAny? accept s =
    ([keyword, name].find? accept).map fun c => (c, cut)

/-- A table that lists the words and the names, in this order, and beside them only patterns whose
texts begin otherwise. -/
structure ListsWords (keyword name : κ) (words : List String) : Prop where
  shaped : ∀ w ∈ words, NameShaped w.toList
  keyword_pattern : pattern? keyword = some (.word words)
  name_pattern : pattern? name = some .name
  listed : wordCategories keyword name (table : List (κ × Pattern)) = [keyword, name]
  entries : ∀ e ∈ (table : List (κ × Pattern)), e = (keyword, .word words) ∨ e = (name, .name) ∨
    (e.1 ≠ keyword ∧ e.1 ≠ name ∧ e.2.BeginsApart)

omit [DecidableEq κ] in
theorem readInOrder_eq (entries : List (κ × Pattern)) (accept : κ → Bool) (s : List Char) :
    readInOrder entries accept s = entries.findSome? fun e =>
      if accept e.1 then (e.2.read s).map (e.1, ·) else none := rfl

omit [DecidableEq κ] in
/-- Where the entries of some categories all read the same and the others nothing, the first of
these categories that is accepted is taken. -/
theorem readInOrder_of_read {entries : List (κ × Pattern)} {s : List Char} {cut : Cut}
    {word : κ → Bool} (h : ∀ e ∈ entries, e.2.read s = if word e.1 then some cut else none)
    (accept : κ → Bool) : readInOrder entries accept s =
      (((entries.map (·.1)).filter word).find? accept).map fun c => (c, cut) := by
  rw [readInOrder_eq]
  induction entries with
  | nil => rfl
  | cons e entries ih =>
    obtain ⟨he, hentries⟩ := List.forall_mem_cons.mp h
    rw [List.findSome?_cons, ih hentries, he]
    by_cases hword : word e.1 = true
    · by_cases haccept : accept e.1 = true
      · simp [hword, haccept]
      · simp [hword, haccept]
    · simp [hword]

namespace ListsWords

variable {keyword name : κ} {words : List String} (h : ListsWords keyword name words)

include h

theorem keyword_iff (s r t : List Char) : read? keyword s = some (r, t) ↔
    s = r ++ t ∧ Lexis.IsLongestName r s ∧ String.ofList r ∈ words ∧
      ∀ c, t.head? = some c → Text.isWordChar c = false := by
  rw [Lexis.read?_word h.keyword_pattern h.shaped, Lexis.readName_eq_some_iff_longest,
    Lexis.wordEnds_iff, and_assoc]

theorem name_iff (s r t : List Char) :
    read? name s = some (r, t) ↔ s = r ++ t ∧ Lexis.IsLongestName r s := by
  rw [Lexis.read?_name h.name_pattern, Lexis.readName_eq_some_iff_longest]

theorem same_cut {s : List Char} {cut : Cut} (hread : read? keyword s = some cut) :
    read? name s = some cut := by
  obtain ⟨hs, hlongest, -⟩ := (h.keyword_iff s cut.1 cut.2).mp hread
  exact (h.name_iff s cut.1 cut.2).mpr ⟨hs, hlongest⟩

theorem read_entry {s : List Char} {cut : Cut} (hread : read? keyword s = some cut)
    {e : κ × Pattern} (he : e ∈ (table : List (κ × Pattern))) :
    e.2.read s = if e.1 = keyword ∨ e.1 = name then some cut else none := by
  have hname := h.same_cut hread
  rcases h.entries e he with rfl | rfl | ⟨hkeyword, hne, hapart⟩
  · rw [if_pos (.inl rfl), ← Lexis.read?_of_pattern h.keyword_pattern, hread]
  · rw [if_pos (.inr rfl), ← Lexis.read?_of_pattern h.name_pattern, hname]
  · rw [Lexis.read?_name h.name_pattern] at hname
    rw [if_neg (by simp [hkeyword, hne]), hapart.read_eq_none hname]

theorem in_order {s : List Char} {cut : Cut} (hread : read? keyword s = some cut)
    {entries : List (κ × Pattern)} (hperm : entries.Perm table) (accept : κ → Bool) :
    readInOrder entries accept s =
      ((wordCategories keyword name entries).find? accept).map fun c => (c, cut) := by
  apply readInOrder_of_read
  intro e he
  simpa using h.read_entry hread (hperm.mem_iff.mp he)

theorem wholeWords : WholeWords keyword name words where
  keyword_iff := h.keyword_iff
  name_iff := h.name_iff
  same_cut _ _ := h.same_cut
  in_order _ _ hread _ := h.in_order hread
  in_table s cut hread accept := by
    have horder := h.in_order hread (List.Perm.refl table) accept
    rwa [h.listed] at horder

end ListsWords

end Lexicon

theorem Program.listsWords :
    Lexicon.ListsWords Program.Category.keyword .identifier Program.reservedWords where
  shaped := Program.nameShaped_of_reserved
  keyword_pattern := rfl
  name_pattern := rfl
  listed := rfl
  entries := by decide

theorem Condition.listsWords :
    Lexicon.ListsWords Condition.Category.keyword .identifier Condition.keywords where
  shaped := Condition.nameShaped_of_keyword
  keyword_pattern := rfl
  name_pattern := rfl
  listed := rfl
  entries := by decide

/-- In both languages a text begins with a keyword exactly if the longest name there is one and ends
there, and then only the order of the table tells it from a name. -/
theorem keywords_are_whole_names :
    Lexicon.WholeWords Program.Category.keyword .identifier Program.reservedWords ∧
      Lexicon.WholeWords Condition.Category.keyword .identifier Condition.keywords :=
  ⟨Program.listsWords.wholeWords, Condition.listsWords.wholeWords⟩

/-- Before a letter outside ASCII a name ends, but no keyword does. -/
example : Lexicon.read? Condition.Category.keyword "nodeé".toList = none ∧
    Lexicon.read? Condition.Category.identifier "nodeé".toList =
      some ("node".toList, "é".toList) := by decide +kernel

end GraphScribe
