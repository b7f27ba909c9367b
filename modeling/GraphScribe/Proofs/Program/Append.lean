import GraphScribe.Proofs.Program.Completeness
import GraphScribe.Proofs.Program.Descriptions
import GraphScribe.Proofs.Program.Tail
import GraphScribe.Proofs.Token.Shift

/-! # Programs one after the other

A program without errors that ends with a period leaves nothing open: whatever comes after it is read
as if it stood alone. -/
namespace GraphScribe.Program

theorem describe_shift (f : Fault) (start n : Nat) (r : List Char) (d : Option String) :
    (Token.ofRun Category.error start r d).requote n
        (Fault.describe f (String.ofList r) start) =
      Fault.describe f (String.ofList r) (start + n) := by
  cases f with
  | unexpected e => exact Token.requote_quotation (Token.ofRun Category.error start r d) n e.message
  | _ => exact Token.requote_of_other _ n (describe_other (by rintro e ⟨⟩) _ _)

theorem layOut_moved (start n : Nat) (ps : List Piece) :
    Lexis.layOut (start + n) ps = (Lexis.layOut start ps).map (Token.shift n) :=
  Lexis.layOut_shift n (fun f start r d => describe_shift f start n r d) start ps

theorem layOut_blanks {ps : List Piece} (h : ∀ p ∈ ps, ∃ r, p = .blank r) (start : Nat) :
    Lexis.layOut start ps = [] := by
  induction ps generalizing start with
  | nil => rfl
  | cons p ps ih =>
    obtain ⟨r, rfl⟩ := h p List.mem_cons_self
    exact ih (fun q hq => h q (List.mem_cons_of_mem _ hq)) _

section Endings

variable {α : Type} {L : Terminals α} {B : List α → Prop} {x : List α}

def EndsOpen (L : Terminals α) (x : List α) : Prop :=
  ∃ y a, x = y ++ [a] ∧ ¬L.mark .declarationSeparator a

theorem EndsOpen.cons (h : EndsOpen L x) (a : α) : EndsOpen L (a :: x) := by
  obtain ⟨y, b, rfl, hb⟩ := h
  exact ⟨a :: y, b, rfl, hb⟩

theorem EndsOpen.append (h : EndsOpen L x) (y : List α) : EndsOpen L (y ++ x) := by
  obtain ⟨z, b, rfl, hb⟩ := h
  exact ⟨y ++ z, b, by simp, hb⟩

theorem EndsOpen.single {a : α} (h : ¬L.mark .declarationSeparator a) : EndsOpen L [a] :=
  ⟨[], a, rfl, h⟩

structure PeriodsApart (L : Terminals α) : Prop where
  keyword : ∀ {w a}, L.keyword w a → ¬L.mark .declarationSeparator a
  mark : ∀ {c a}, c ≠ .declarationSeparator → L.mark c a → ¬L.mark .declarationSeparator a
  name : ∀ {a}, L.name a → ¬L.mark .declarationSeparator a
  sign : ∀ {p a}, L.sign p a → ¬L.mark .declarationSeparator a

variable (hL : PeriodsApart L)

include hL

theorem BlockOver.endsOpen (h : BlockOver L B x) : EndsOpen L x := by
  cases h with
  | skip ha => exact .single (hL.keyword ha)
  | fail ha => exact .single (hL.keyword ha)
  | name ha => exact .single (hL.name ha)
  | parens _ _ _ hb =>
    exact (((EndsOpen.single (hL.mark (by decide) hb)).append _).append _).cons _
  | noRules _ hb => exact (EndsOpen.single (hL.mark (by decide) hb)).cons _
  | rules _ _ hb => exact ((EndsOpen.single (hL.mark (by decide) hb)).append _).cons _

theorem block_endsOpen (n : Nat) (h : Block L n x) : EndsOpen L x := by
  cases n with
  | zero => exact BlockOver.endsOpen hL h
  | succ n => exact BlockOver.endsOpen hL h

variable (hB : ∀ x, B x → EndsOpen L x)

include hB

omit hL in
theorem ElsePart.endsOpen {y : List α} (h : ElsePart L B y) (hx : EndsOpen L x) :
    EndsOpen L (x ++ y) := by
  cases h with
  | none => rwa [List.append_nil]
  | some _ hy => exact ((hB _ hy).cons _).append _

omit hL in
theorem ThenPart.endsOpen (h : ThenPart L B x) : EndsOpen L x := by
  obtain ⟨_, hx, hy⟩ := h
  exact (hy.endsOpen hB (hB _ hx)).cons _

theorem Command.endsOpen (h : Command L B x) : EndsOpen L x := by
  cases h with
  | conditional _ _ hT => exact ((hT.endsOpen hB).append _).cons _
  | attempt _ hx => exact (hB _ hx).cons _
  | attemptThen _ _ hT => exact ((hT.endsOpen hB).append _).cons _
  | block hx => exact hB _ hx
  | repeated _ ha => exact (EndsOpen.single (hL.mark (by decide) ha)).append _
  | choice _ _ hy => exact ((hB _ hy).cons _).append _

theorem Sequence.endsOpen (h : Sequence L B x) : EndsOpen L x := by
  induction h with
  | one hC => exact hC.endsOpen hL hB
  | more _ _ _ ih => exact (ih.cons _).append _

theorem Unfinished.endsOpen {p : Place} (h : Unfinished L B p x) : EndsOpen L x := by
  induction h with
  | empty _ hb => exact (EndsOpen.single (hL.sign hb)).cons _
  | body _ _ hS => exact ((hS.endsOpen hL hB).cons _).cons _
  | later _ _ _ _ _ ih => exact (((ih.cons _).append _).cons _).cons _

end Endings

theorem spaced_periodsApart : PeriodsApart spaced where
  keyword := by
    rintro w x hx ⟨_, _, hp⟩
    cases hx.1.symm.trans hp.1
  mark := by
    rintro c x hc ⟨_, _, hx⟩ ⟨_, _, hp⟩
    injection hx.1.symm.trans hp.1 with hcat
    exact hc hcat
  name := by
    rintro x ⟨_, _, hx⟩ ⟨_, _, hp⟩
    cases hx.1.symm.trans hp.1
  sign := by
    rintro p x hx ⟨_, _, hp⟩
    cases hx.1.1.symm.trans hp.1

/-- An element that occurs in neither list after the other splits a list in one way. -/
theorem split_unique {α : Type} {x y z w : List α} {a b : α} (h : x ++ a :: y = z ++ b :: w)
    (ha : a ∉ w) (hb : b ∉ y) : a = b ∧ y = w := by
  rcases List.append_eq_append_iff.mp h with ⟨u, _, hy⟩ | ⟨u, _, hw⟩
  · cases u with
    | nil => exact List.cons.inj hy
    | cons c u =>
      rw [(List.cons.inj hy).2] at hb
      exact absurd (by simp) hb
  · cases u with
    | nil =>
      obtain ⟨rfl, rfl⟩ := List.cons.inj hw
      exact ⟨rfl, rfl⟩
    | cons c u =>
      rw [(List.cons.inj hw).2] at ha
      exact absurd (by simp) ha

/-- Where the last token of a layout with its last gap is a separator, that gap is blank and the
separator is the last letter. -/
theorem last_of_laid {s t : List Char} {xs : List Spaced} (hl : Laid s xs t) {start : Nat}
    {tok : Token Category}
    (hlast : (Lexis.layOut start (flatten xs ++ (gaps t).pieces)).getLast? = some tok)
    (hsep : tok.category = .declarationSeparator) :
    (∀ p ∈ (gaps t).pieces, ∃ r, p = .blank r) ∧
      ∃ ys x r, xs = ys ++ [x] ∧ x.2 = .token .declarationSeparator r := by
  obtain ⟨before, p, after, heq, hp, hblank⟩ := Lexis.last_of_layOut hlast
  obtain ⟨r, rfl⟩ : ∃ r, p = .token .declarationSeparator r := by
    cases p with
    | blank r => cases hp
    | token c r => cases hp; cases hsep; exact ⟨r, rfl⟩
    | fault f r => cases hp; cases hsep
  have hnot : Lexis.Piece.token .declarationSeparator r ∉ (gaps t).pieces := by
    intro hm
    cases isGap_of_mem_gaps t _ hm
  rcases List.eq_nil_or_concat xs with rfl | ⟨ys, x, rfl⟩
  · exact absurd (by rw [flatten_nil, List.nil_append] at heq; simp [heq]) hnot
  · rw [List.concat_eq_append] at heq hl
    obtain ⟨u, _, hx⟩ := hl.split
    have hown : x.2 ∉ after := by
      intro hm
      obtain ⟨v, hv⟩ := hblank _ hm
      cases hx with
      | cons _ hr _ =>
        obtain ⟨l, hlex⟩ := lexeme?_of_reads hr (gap?_rest_gaps u)
        rw [hv] at hlex
        cases hlex
    have heq' : (flatten ys ++ x.1) ++ x.2 :: (gaps t).pieces =
        before ++ .token .declarationSeparator r :: after := by simpa using heq
    obtain ⟨hpiece, hgap⟩ := split_unique heq' hown hnot
    rw [hgap]
    exact ⟨hblank, ys, x, r, List.concat_eq_append, hpiece⟩

/-- A text without errors that ends with a separator is the layout of a program, and only blanks come
after it. -/
theorem program_of_separator {s : List Char} (hc : Clean (pieces s)) {tok : Token Category}
    (hlast : (Lexis.layOut 0 (pieces s)).getLast? = some tok)
    (hsep : tok.category = .declarationSeparator) :
    ∃ ys x t, Laid s (ys ++ [x]) t ∧ IsProgram spaced (ys ++ [x]) ∧
      spaced.mark .declarationSeparator x ∧ (∀ c ∈ t, Text.isBlank c = true) := by
  obtain ⟨xs, hl, heq, hP⟩ := pieces_sound hc
  have hend := program_rest s
  generalize (declarations (block maxNesting) .top s).rest = t at hl heq hend
  rw [heq] at hlast
  obtain ⟨hblank, ys, x, r, rfl, hx⟩ := last_of_laid hl hlast hsep
  have hmark : spaced.mark .declarationSeparator x := by
    obtain ⟨u, _, hlx⟩ := hl.split
    cases hlx with
    | cons hg hr _ =>
      rw [hx] at hr
      have hread := (read?_mark rfl).mp (read?_of_reads (by decide) hr)
      refine ⟨'.', rfl, by rw [hx, hread.1], ?_⟩
      rw [← hg]
      exact isGap_of_mem_gaps u
  refine ⟨ys, x, t, hl, ?_, hmark, ?_⟩
  · rcases hP with hP | hU
    · exact hP
    · -- an unfinished program never ends with a period
      obtain ⟨zs, y, hzy, hy⟩ := hU.endsOpen spaced_periodsApart
        fun _ => block_endsOpen spaced_periodsApart maxNesting
      have hlast := (List.append_inj' hzy rfl).2
      rw [List.singleton_inj.mp hlast] at hmark
      exact absurd hmark hy
  · have htext := (scans_gaps t).append
    rw [hend, List.append_nil] at htext
    intro c hcm
    rw [← htext] at hcm
    obtain ⟨p, hp, hcp⟩ := List.mem_flatMap.mp hcm
    obtain ⟨r, rfl⟩ := hblank p hp
    exact (scans_gaps t).proper _ hp c hcp

theorem pieces_nil : pieces [] = [] := by
  by_contra hne
  exact absurd ((scan_pieces []).shorter hne) (Nat.lt_irrefl _)

/-- After a program without errors that ends with a period, any text is read as if it stood alone. -/
theorem tokens_append_of_program (a b : String) (hclean : Tokens.hasErrors (tokens a) = false)
    (hlast : (tokens a).back?.map Token.category = some .declarationSeparator) :
    tokens (a ++ b) =
      tokens a ++ (tokens b).map (Token.shift (Text.byteLength a.toList)) := by
  have hc : Clean (pieces a.toList) :=
    clean_of_scan (scan_pieces a.toList) (no_fault_of_no_errors hclean)
  obtain ⟨tok, htok, hsep⟩ := Option.map_eq_some_iff.mp hlast
  obtain ⟨ys, x, t, hl, hP, hmark, hblank⟩ :=
    program_of_separator hc (by simpa [tokens] using htok) hsep
  have hfirst : pieces a.toList = flatten (ys ++ [x]) ++ pieces t := program_reads hP hl
  rw [hfirst] at hc
  have htext := hl.append
  have hmoved := hl.tail_of_mark hmark (clean_append.mp hc).1 (t ++ b.toList)
  rw [← List.append_assoc, htext] at hmoved
  have hwhole : pieces (a.toList ++ b.toList) = flatten (ys ++ [x]) ++ pieces (t ++ b.toList) :=
    program_reads hP hmoved
  -- the blanks that `a` ends with are read again, as the first gap of what comes after
  have hnone : ∀ start, Lexis.layOut start (pieces t) = [] := by
    intro start
    have hmove := layOut_pieces_blanks hblank [] start
    rw [List.append_nil, pieces_nil] at hmove
    exact hmove
  have hlength : Text.byteLength (Lexis.Piece.text (flatten (ys ++ [x]))) + Text.byteLength t =
      Text.byteLength a.toList := by
    rw [← Text.byteLength_append, htext]
  unfold tokens
  rw [String.toList_append, hwhole, hfirst, Lexis.layOut_append, Lexis.layOut_append, hnone,
    List.append_nil, layOut_pieces_blanks hblank, Nat.add_assoc, hlength, layOut_moved]
  simp

/-- What comes second is in error at places that its descriptions quote. -/
theorem tokens_append_of_program_unclosed :
    Tokens.hasErrors (tokens "m = r!. ") = false ∧
      (tokens "m = r!. ").back?.map Token.category = some .declarationSeparator ∧
      tokens ("m = r!. " ++ "= (a; . b = c") = tokens "m = r!. " ++
        (tokens "= (a; . b = c").map (Token.shift (Text.byteLength "m = r!. ".toList)) :=
  have hclean : Tokens.hasErrors (tokens "m = r!. ") = false := by decide +kernel
  have hlast : (tokens "m = r!. ").back?.map Token.category = some .declarationSeparator := by
    decide +kernel
  ⟨hclean, hlast, tokens_append_of_program _ _ hclean hlast⟩

end GraphScribe.Program
