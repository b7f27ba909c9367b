import GraphScribe.Proofs.Program.Append
import GraphScribe.Proofs.Program.Nesting
import GraphScribe.Proofs.Program.SideBySide

/-! # Recovery after a period

However malformed a text is, and whatever blocks it leaves open: if it ends with a period, a program
without errors and comments after it is read as if it stood alone, as long as the blocks that may
have been left open leave enough levels for its own. -/
namespace GraphScribe.Program

open Lexis (Reads Scan)

theorem LenientAt.head {α : Type} {L : Terminals α} {n : Nat} {p : Place} {x : List α}
    (h : LenientAt L n p x) (hx : x ≠ []) :
    ∃ a b y, x = a :: b :: y ∧ L.declared p a ∧ L.sign p b := by
  rcases h with h | h
  · cases h with
    | nil => exact absurd rfl hx
    | cons ha hb => exact ⟨_, _, _, rfl, ha, hb⟩
  · cases h with
    | empty ha hb => exact ⟨_, _, _, rfl, ha, hb⟩
    | body ha hb => exact ⟨_, _, _, rfl, ha, hb⟩
    | later ha hb => exact ⟨_, _, _, rfl, ha, hb⟩

section NoComments

variable {s t : List Char} {xs : List Spaced}

theorem onlyBlanks_of_no_comments (hl : Laid s xs t) {start : Nat} {ps : List Piece}
    (h : ∀ tok ∈ Lexis.layOut start (flatten xs ++ ps), tok.category ≠ .comment) :
    ∀ x ∈ xs, x.OnlyBlanks := by
  intro x hx p hp
  have hmem : p ∈ flatten xs ++ ps := List.mem_append_left _ (mem_flatten_of_gap hx hp)
  exact blank_of_no_comments h hmem (hl.isGap x hx p hp)

/-- Where there are no comments, the tokens go as deep as the letters they are laid out of. -/
theorem nesting_of_laid (hl : Laid s xs t) {start : Nat}
    (h : ∀ tok ∈ Lexis.layOut start (flatten xs ++ (gaps t).pieces), tok.category ≠ .comment) :
    nesting (Lexis.layOut start (flatten xs ++ (gaps t).pieces)).toArray =
      deepest 0 (xs.map fun x => categoryOf x.2) := by
  have hsig := significant_of_laid hl start
  unfold significant Tokens.summary at hsig
  rw [List.filter_eq_self.mpr (by simpa using h)] at hsig
  have hcats := congrArg (List.map Prod.fst) hsig
  rw [List.map_map, List.map_map] at hcats
  exact congrArg (deepest 0) hcats

theorem startsDeclaration_of_laid {n : Nat} {p : Place} (hl : Laid s xs t)
    (hP : LenientAt spaced n p xs) (hne : xs ≠ []) (hp : p ≠ .top)
    (hblank : ∀ x ∈ xs, x.OnlyBlanks) : startsDeclaration (Text.dropBlank s) = true := by
  obtain ⟨a, b, y, rfl, ha, hb⟩ := hP.head hne
  obtain ⟨u, hhead, _⟩ := hl.uncons_two
  obtain ⟨_, _, _, hstart, _, _⟩ := declarationHead_reads hhead ha hb
  have hgap : (gaps s).rest = Text.dropBlank s := by
    refine Lexis.gaps_of_blanks ?_
    cases hhead with
    | cons hg _ _ =>
      have hfirst := hblank a List.mem_cons_self
      unfold Spaced.OnlyBlanks at hfirst
      rwa [← hg] at hfirst
  rw [← hgap]
  exact hstart hp

end NoComments

/-- Blanks and a program without errors and comments are a sequel to any text that ends with a
period. -/
theorem sequel_of_program {w v : List Char} (hw : ∀ c ∈ w, Text.isBlank c = true)
    (hclean : Tokens.hasErrors (Lexis.layOut 0 (pieces (w ++ v))).toArray = false)
    (hsome : Lexis.layOut 0 (pieces (w ++ v)) ≠ [])
    (hcomments : ∀ t ∈ Lexis.layOut 0 (pieces (w ++ v)), t.category ≠ .comment) :
    ∃ k : Sequel, k.blanks = w ∧ k.text = v ∧
      k.pieces ++ (gaps k.rest).pieces = pieces (w ++ v) ∧
      k.need = nesting (Lexis.layOut 0 (pieces (w ++ v))).toArray := by
  have hc : Clean (pieces (w ++ v)) :=
    clean_of_scan (scan_pieces _) (no_fault_of_no_errors hclean)
  obtain ⟨xs, hl, heq, hP⟩ := pieces_sound hc
  have hend := program_rest (w ++ v)
  generalize (declarations (block maxNesting) .top (w ++ v)).rest = t at hl heq hend
  rw [heq] at hsome hcomments
  have hblank := onlyBlanks_of_no_comments hl hcomments
  have hnest := nesting_of_laid hl hcomments
  rw [← heq] at hnest
  have hne : xs ≠ [] := by
    rintro rfl
    refine hsome (layOut_blanks (fun p hp => ?_) 0)
    exact blank_of_no_comments hcomments hp (isGap_of_mem_gaps t p (by simpa using hp))
  -- what was parsed with all levels at the top needs only its own, and stands in a block as well
  have hsomewhere : ∀ {n}, nesting (Lexis.layOut 0 (pieces (w ++ v))).toArray ≤ n → ∀ scope,
      ∃ p : Place, p.scope = scope ∧ LenientAt spaced n p xs :=
    fun hn scope => lenient_anywhere hP (by rwa [← hnest]) hblank scope
  refine ⟨⟨w, v, flatten xs, t, _, hw, hend, ?_, ?_⟩, rfl, rfl, heq.symm, rfl⟩
  · obtain ⟨p, hp, hinner⟩ := hsomewhere (Nat.le_refl _) .inner
    refine startsDeclaration_of_laid hl hinner hne ?_ hblank
    rintro rfl
    cases hp
  · intro n hn scope
    obtain ⟨p, rfl, hp⟩ := hsomewhere hn scope
    exact lenient_reads hp hl hend

/-- The last token of a text is its last period, and only blanks come after it. -/
theorem period_last {s : List Char} {tok : Token Category}
    (hlast : (Lexis.layOut 0 (pieces s)).getLast? = some tok) (htext : tok.text = ".") :
    ∃ (ps : List Piece) (w : List Char), (∀ c ∈ w, Text.isBlank c = true) ∧
      Scan recast s ps ('.' :: w) := by
  obtain ⟨before, p, after, heq, hp, hblank⟩ := Lexis.last_of_layOut hlast
  have hrun : p.run = ['.'] := by
    rw [← (Lexis.Piece.token?_span hp).2.2, htext]
    rfl
  have hscan := scan_pieces s
  rw [heq] at hscan
  obtain ⟨t, hbefore, hafter⟩ := hscan.split
  have happ := hafter.append
  rw [Lexis.Piece.text_cons, hrun, List.append_nil] at happ
  refine ⟨before, Lexis.Piece.text after, ?_, ?_⟩
  · intro c hc
    obtain ⟨q, hq, hcq⟩ := List.mem_flatMap.mp hc
    obtain ⟨r, rfl⟩ := hblank q hq
    exact hafter.proper _ (List.mem_cons_of_mem _ hq) c hcq
  · rw [← happ] at hbefore
    exact hbefore

theorem parens_layOut {ps : List Piece} (h : ∀ p ∈ ps, p.Proper) (start : Nat) :
    (Lexis.layOut start ps).countP (fun t => t.text == "(") = parens ps := by
  have htext : ∀ r : List Char, (String.ofList r == "(") = decide (r = ['(']) := by
    intro r
    rw [Bool.beq_eq_decide_eq]
    refine decide_eq_decide.mpr ⟨fun h => ?_, fun h => by rw [h]⟩
    have hlist := congrArg String.toList h
    rwa [String.toList_ofList] at hlist
  induction ps generalizing start with
  | nil => rfl
  | cons p ps ih =>
    obtain ⟨hp, hps⟩ := List.forall_mem_cons.mp h
    have hone : (p.token? start).toList.countP (fun t => t.text == "(") = parens [p] := by
      cases p with
      | blank r =>
        have hne : r ≠ ['('] := by
          rintro rfl
          exact absurd (hp '(' (by simp)) (by decide)
        simp [Lexis.Piece.token?, parens, hne]
      | token c r => by_cases hr : r = ['('] <;> simp [Lexis.Piece.token?, parens, Token.ofRun, htext, hr]
      | fault f r => by_cases hr : r = ['('] <;> simp [Lexis.Piece.token?, parens, Token.ofRun, htext, hr]
    rw [Lexis.layOut_cons, List.countP_append, ih hps, hone, ← parens_append]
    rfl

theorem layOut_moved_clean {start : Nat} {ps : List Piece}
    (h : Tokens.hasErrors (Lexis.layOut start ps).toArray = false) (n : Nat) :
    Lexis.layOut (start + n) ps = (Lexis.layOut start ps).map (Token.move n) := by
  rw [layOut_moved]
  refine List.map_congr_left fun t ht => ?_
  obtain ⟨before, p, after, rfl, hp⟩ := Lexis.mem_layOut.mp ht
  cases p with
  | blank r => cases hp
  | token c r => cases hp; rfl
  | fault f r => exact absurd (by simp) (no_fault_of_no_errors h f r)

theorem hasErrors_move (ts : Tokens Category) (n : Nat) :
    Tokens.hasErrors (ts.map (Token.move n)) = Tokens.hasErrors ts := by
  unfold Tokens.hasErrors
  rw [Array.any_map]
  rfl

theorem nesting_move (ts : Tokens Category) (n : Nat) :
    nesting (ts.map (Token.move n)) = nesting ts := by
  simp [nesting, Token.move, Function.comp_def]

theorem countP_parens (a : String) :
    (tokens a).countP (fun t => t.text == "(") = parens (pieces a.toList) := by
  rw [← parens_layOut (scan_pieces a.toList).proper 0, ← List.countP_toArray]
  rfl

theorem gaps_all_blank {w : List Char} (hw : ∀ c ∈ w, Text.isBlank c = true) :
    Lexis.Piece.text (gaps w).pieces = w ∧ ∀ start, Lexis.layOut start (gaps w).pieces = [] := by
  obtain ⟨hrest, hlay⟩ := gaps_blanks hw []
  have hnil : gaps [] = ⟨[], [], 0⟩ := by rw [gaps, Lexis.gaps_of_none rfl]
  rw [List.append_nil, hnil] at hrest hlay
  have htext := (scans_gaps w).append
  rw [hrest, List.append_nil] at htext
  exact ⟨htext, hlay⟩

/-- After a text that ends with a period, a program without errors and comments is read as if it stood
alone, if the text has left it enough levels. -/
theorem tokens_append_of_period (a b : String) (hlast : (tokens a).back?.map Token.text = some ".")
    (hsome : tokens b ≠ #[]) (hclean : Tokens.hasErrors (tokens b) = false)
    (hcomments : ∀ t ∈ tokens b, t.category ≠ .comment)
    (hdeep : nesting (tokens b) ≤ maxNesting - (tokens a).countP fun t => t.text == "(") :
    tokens (a ++ b) =
      tokens a ++ (tokens b).map (Token.move (Text.byteLength a.toList)) := by
  obtain ⟨tok, htok, htext⟩ := Option.map_eq_some_iff.mp hlast
  obtain ⟨ps, w, hw, hscan⟩ := period_last (by simpa [tokens] using htok) htext
  -- `a` may end with blanks, which belong to the first gap of what comes after
  have hmoved : ∀ start, Lexis.layOut start (pieces (w ++ b.toList)) =
      (Lexis.layOut 0 (pieces b.toList)).map (Token.move (start + Text.byteLength w)) := by
    intro start
    have hmove := layOut_moved_clean hclean (start + Text.byteLength w)
    rwa [Nat.zero_add, ← layOut_pieces_blanks hw] at hmove
  have hwhole : (Lexis.layOut 0 (pieces (w ++ b.toList))).toArray =
      (tokens b).map (Token.move (Text.byteLength w)) := by
    rw [hmoved, Nat.zero_add, ← List.map_toArray]
    rfl
  obtain ⟨k, rfl, hk, hpieces, hneed⟩ := sequel_of_program (v := b.toList) hw
    (by rw [hwhole, hasErrors_move]; exact hclean)
    (by rw [hmoved]; simpa [tokens] using hsome)
    (by rw [hmoved]; simpa [tokens, Token.move] using hcomments)
  have hfits : k.need ≤ maxNesting - parens (pieces a.toList) := by
    rwa [hneed, hwhole, nesting_move, ← countP_parens]
  obtain ⟨qs, ha, hab⟩ := Sequel.program_carries ⟨ps, hscan⟩ hfits
  rw [List.append_assoc, hpieces, hk] at hab
  obtain ⟨hgap, hblank⟩ := gaps_all_blank k.blank
  have hlength : Text.byteLength (Lexis.Piece.text qs) + Text.byteLength k.blanks =
      Text.byteLength a.toList := by
    have hall := (scan_pieces a.toList).append
    rw [ha, List.append_nil, Lexis.Piece.text_append, hgap] at hall
    rw [← Text.byteLength_append, hall]
  unfold tokens
  rw [String.toList_append, hab, ha, Lexis.layOut_append, Lexis.layOut_append, hblank,
    List.append_nil, hmoved, Nat.zero_add, hlength]
  simp

/-- Two blocks and a local declaration are left open, and what comes after them has a block itself. -/
theorem tokens_append_of_period_unclosed :
    (tokens "m = ; if ((x = q. ").back?.map Token.text = some "." ∧
      tokens "n = (l = s. t) or skip. u = v!" ≠ #[] ∧
      Tokens.hasErrors (tokens "n = (l = s. t) or skip. u = v!") = false ∧
      (∀ t ∈ tokens "n = (l = s. t) or skip. u = v!", t.category ≠ .comment) ∧
      nesting (tokens "n = (l = s. t) or skip. u = v!") ≤
        maxNesting - (tokens "m = ; if ((x = q. ").countP (fun t => t.text == "(") ∧
      tokens ("m = ; if ((x = q. " ++ "n = (l = s. t) or skip. u = v!") =
        tokens "m = ; if ((x = q. " ++ (tokens "n = (l = s. t) or skip. u = v!").map
          (Token.move (Text.byteLength "m = ; if ((x = q. ".toList)) :=
  have hlast : (tokens "m = ; if ((x = q. ").back?.map Token.text = some "." := by decide +kernel
  have hsome : tokens "n = (l = s. t) or skip. u = v!" ≠ #[] := by decide +kernel
  have hclean : Tokens.hasErrors (tokens "n = (l = s. t) or skip. u = v!") = false := by
    decide +kernel
  have hcomments : ∀ t ∈ tokens "n = (l = s. t) or skip. u = v!", t.category ≠ .comment := by
    decide +kernel
  have hdeep : nesting (tokens "n = (l = s. t) or skip. u = v!") ≤
      maxNesting - (tokens "m = ; if ((x = q. ").countP fun t => t.text == "(" := by
    decide +kernel
  ⟨hlast, hsome, hclean, hcomments, hdeep,
    tokens_append_of_period _ _ hlast hsome hclean hcomments hdeep⟩

end GraphScribe.Program
