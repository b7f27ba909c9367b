import GraphScribe.Proofs.Program.Soundness

/-! # Reserved words in the place of names

A reserved word never names a declaration or a rule of a rule set. The reader of blocks recognises
reserved words by the pattern of keywords, which asks that the word ends, while a name ends at the
last letter, digit or underscore of ASCII. Between the two falls a reserved word with a word
character outside ASCII right after it: a block that begins with it is read as a name. -/
namespace GraphScribe.Program

open Lexis (Reads Scan)

theorem read?_keyword_of_stuck {s r t : List Char} (h : Lexis.readName s = some (r, t))
    (hstuck : Text.wordEnds t = false) : read? .keyword s = none := by
  cases hk : read? .keyword s with
  | none => rfl
  | some cut =>
    obtain ⟨r', t'⟩ := cut
    obtain ⟨hname, _, hend⟩ := read?_keyword.mp hk
    rw [h] at hname
    cases hname
    rw [hstuck] at hend
    cases hend

/-- At every level a name that a word character follows is a block, whether or not it is reserved. -/
theorem block_of_stuck (levels : Nat) {s r t : List Char} (h : Lexis.readName s = some (r, t))
    (hstuck : Text.wordEnds t = false) :
    block levels s = some ⟨[.token .identifier r], t, 0⟩ := by
  have hparen : read? .openParen s = none := read?_mark_of_readName rfl h
  have hbrace : read? .openBrace s = none := read?_mark_of_readName rfl h
  simp [block, read?_keyword_of_stuck h hstuck, hparen, hbrace, read?_identifier, h]

/-- The piece after a reserved word that was read as a name is in error. -/
theorem fault_after_reserved {before after : List Piece} {r : List Char} {s : List Char}
    (h : pieces s = before ++ .token .identifier r :: after)
    (hres : isReserved (String.ofList r) = true) :
    ∃ a u f v rest, Lexis.Piece.text after = a :: u ∧ after = .fault f v :: rest ∧
      Text.isWordChar a = true ∧ Lexis.isNamePart a = false := by
  have hscan := scan_pieces s
  rw [h] at hscan
  obtain ⟨_, _, hscan⟩ := hscan.split
  cases hscan with
  | cons hname hafter =>
    obtain ⟨a, u, rfl, hword, hpart⟩ := stuck_of_reserved hname hres
    have htext := hafter.append
    rw [List.append_nil] at htext
    cases hafter with
    | cons hp hrest =>
      obtain ⟨f, v, rfl⟩ := reads_stuck hword hpart hp
      exact ⟨a, u, f, v, _, htext, rfl, hword, hpart⟩

theorem toNat_of_stuck {a : Char} (hword : Text.isWordChar a = true)
    (hpart : Lexis.isNamePart a = false) : 128 ≤ a.toNat := by
  by_contra hlt
  rw [Lexis.isWordChar_of_lt (by omega), hpart] at hword
  cases hword

theorem declared_not_reserved {before after : List Piece} {r : List Char} {s : List Char}
    (h : pieces s = before ++ .token .declaration r :: after) :
    isReserved (String.ofList r) = false := by
  have hscan := scan_pieces s
  rw [h] at hscan
  obtain ⟨_, _, hdeclared⟩ := recast_of_reads (by decide) hscan.reads_of_mem
  exact hdeclared.2

theorem exists_piece {text : String} {t : Token Category} (ht : t ∈ tokens text)
    (hc : t.category ≠ .error) : ∃ before after,
      pieces text.toList = before ++ .token t.category t.text.toList :: after ∧
        t.start = Text.byteLength (Lexis.Piece.text before) := by
  obtain ⟨before, p, after, hsplit, hp⟩ := Lexis.mem_layOut.mp (by simpa [tokens] using ht)
  rw [Lexis.Piece.eq_token_of_token? hp hc] at hsplit
  exact ⟨before, after, hsplit, by simpa using (Lexis.Piece.token?_span hp).1⟩

theorem mem_tokens_fault {text : String} {before after : List Piece} {f : Fault} {r : List Char}
    (h : pieces text.toList = before ++ .fault f r :: after) :
    ∃ u ∈ tokens text, u.isError = true ∧
      u.start = Text.byteLength (Lexis.Piece.text before) := by
  have hfault : Lexis.Piece.token? (0 + Text.byteLength (Lexis.Piece.text before))
      (.fault f r : Piece) = some _ := rfl
  have hmem := Lexis.mem_layOut.mpr ⟨before, _, after, h, hfault⟩
  exact ⟨_, by simpa [tokens] using hmem, rfl, rfl⟩

/-- No declaration bears a reserved word, and an identifier does only where a word character outside
ASCII comes right after it, as part of an error; but there every block that begins with a reserved
word is an identifier. -/
theorem reserved_names (text : String) :
    (∀ t ∈ tokens text, t.category = .declaration → isReserved t.text = false) ∧
      (∀ t ∈ tokens text, t.category = .identifier → isReserved t.text = true →
        ∃ before a after, text.toList = before ++ t.text.toList ++ a :: after ∧
          t.start = Text.byteLength before ∧ Text.isWordChar a = true ∧ 128 ≤ a.toNat ∧
          ∃ u ∈ tokens text, u.isError = true ∧
            u.start = Text.byteLength (before ++ t.text.toList)) ∧
      ∀ levels r a after, Lexis.NameShaped r → Text.isWordChar a = true → 128 ≤ a.toNat →
        block levels (r ++ a :: after) = some ⟨[.token .identifier r], a :: after, 0⟩ := by
  refine ⟨?_, ?_, ?_⟩
  · intro t ht hc
    obtain ⟨before, after, hsplit, _⟩ := exists_piece ht (by rw [hc]; decide)
    rw [hc] at hsplit
    have hname := declared_not_reserved hsplit
    rwa [String.ofList_toList] at hname
  · intro t ht hc hres
    obtain ⟨before, after, hsplit, hstart⟩ := exists_piece ht (by rw [hc]; decide)
    rw [hc] at hsplit
    obtain ⟨a, u, f, v, rest, htext, rfl, hword, hpart⟩ :=
      fault_after_reserved hsplit (by rwa [String.ofList_toList])
    have happ := (scan_pieces text.toList).append
    rw [hsplit, List.append_nil, Lexis.Piece.text_append, Lexis.Piece.text_cons, htext] at happ
    rw [List.append_cons] at hsplit
    have herror := mem_tokens_fault hsplit
    rw [Lexis.Piece.text_append, Lexis.Piece.text_cons, Lexis.Piece.text_nil,
      List.append_nil] at herror
    refine ⟨_, a, u, ?_, hstart, hword, toNat_of_stuck hword hpart, herror⟩
    rw [← happ, List.append_assoc]
    rfl
  · intro levels r a after hr hword ha
    have hpart : Lexis.isNamePart a = false := by
      cases hp : Lexis.isNamePart a with
      | false => rfl
      | true => exact absurd (Lexis.toNat_lt_of_isNamePart hp) (by omega)
    have hends : Lexis.NameEnds (a :: after) := by
      intro c hc
      cases hc
      exact hpart
    have hstuck : Text.wordEnds (a :: after) = false := by simpa [Text.wordEnds] using hword
    exact block_of_stuck levels (Lexis.readName_eq_some_iff.mpr ⟨hr, hends, rfl⟩) hstuck

/-- A block of a program is named after the word `if`. -/
theorem reserved_names_accented :
    (∃ t ∈ tokens "m = ifé.", t.category = .identifier ∧ isReserved t.text = true ∧
      ∃ before a after, "m = ifé.".toList = before ++ t.text.toList ++ a :: after ∧
        t.start = Text.byteLength before ∧ Text.isWordChar a = true ∧ 128 ≤ a.toNat ∧
        ∃ u ∈ tokens "m = ifé.", u.isError = true ∧
          u.start = Text.byteLength (before ++ t.text.toList)) ∧
      block 64 "ifé.".toList = some ⟨[.token .identifier "if".toList], "é.".toList, 0⟩ := by
  have htoken : Token.ofRun .identifier 4 ['i', 'f'] none ∈ tokens "m = ifé." := by
    decide +kernel
  obtain ⟨_, hnames, hblocks⟩ := reserved_names "m = ifé."
  refine ⟨⟨_, htoken, rfl, by decide, hnames _ htoken rfl (by decide)⟩, ?_⟩
  exact hblocks 64 "if".toList 'é' ['.'] (by decide) (by decide +kernel) (by decide)

/-- So a reserved word can name a rule or macro. -/
theorem reserved_word_named :
    ∃ t ∈ tokens "m = ifé.", t.category = .identifier ∧ t.text ∈ reservedWords :=
  ⟨Token.ofRun .identifier 4 ['i', 'f'] none, by decide +kernel, rfl, by decide⟩

end GraphScribe.Program
