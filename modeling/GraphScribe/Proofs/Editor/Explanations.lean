import GraphScribe.Proofs.Condition.Scan
import GraphScribe.Proofs.Program.Layout

/-! # What category, text and description of a token tell

A token is described where it is in error and nowhere else. Where it is not, its text is what can be
read at its offset: the comment that begins there, or what the pattern of its category cuts off. An
error never stands where a comment begins. All of this is decided by the one reading that took the
piece of the token, whatever was read before or after. -/
namespace GraphScribe

open Text (byteLength dropBytes)
open Lexis (Reads Scan Piece gap? readComment)

variable {κ φ : Type} [DecidableEq κ] [Lexicon κ]

/-- The token agrees with the text `s` that it was taken from. A token of category `c` was recognised
by the pattern of `readAs c`. -/
structure Token.Explained (readAs : κ → κ) (s : List Char) (t : Token κ) : Prop where
  described_iff : t.description.isSome = true ↔ t.isError = true
  comment : t.category = Lexicon.comment →
    readComment (dropBytes t.start s) = some (t.text.toList, dropBytes t.stop s)
  not_comment : t.category ≠ Lexicon.comment → readComment (dropBytes t.start s) = none
  recognised : t.category ≠ Lexicon.error → t.category ≠ Lexicon.comment →
    Lexicon.read? (readAs t.category) (dropBytes t.start s) =
      some (t.text.toList, dropBytes t.stop s)

namespace Token.Explained

variable {readAs : κ → κ} {s : List Char} {t : Token κ}

theorem of_comment (hdistinct : (Lexicon.comment : κ) ≠ Lexicon.error)
    (hc : t.category = Lexicon.comment) (hd : t.description = none)
    (hread : readComment (dropBytes t.start s) = some (t.text.toList, dropBytes t.stop s)) :
    t.Explained readAs s where
  described_iff := by simp [Token.isError, hd, hc, hdistinct]
  comment _ := hread
  not_comment hne := absurd hc hne
  recognised _ hne := absurd hc hne

theorem of_error (hdistinct : (Lexicon.comment : κ) ≠ Lexicon.error)
    (hc : t.category = Lexicon.error) (hd : t.description.isSome = true)
    (hnone : readComment (dropBytes t.start s) = none) : t.Explained readAs s where
  described_iff := by simp [Token.isError, hd, hc]
  comment h := absurd (h.symm.trans hc) hdistinct
  not_comment _ := hnone
  recognised hne _ := absurd hc hne

theorem of_read (hcomment : t.category ≠ Lexicon.comment) (herror : t.category ≠ Lexicon.error)
    (hd : t.description = none) (hnone : readComment (dropBytes t.start s) = none)
    (hread : Lexicon.read? (readAs t.category) (dropBytes t.start s) =
      some (t.text.toList, dropBytes t.stop s)) : t.Explained readAs s where
  described_iff := by simp [Token.isError, hd, herror]
  comment h := absurd h hcomment
  not_comment _ := hnone
  recognised _ _ := hread

end Token.Explained

namespace Lexis

variable [Describable φ] {as : Recast κ} {readAs : κ → κ}

theorem Reads.dropBytes_token {before s rest : List Char} {p : Piece κ φ} {t : Token κ}
    (h : Reads as s p rest) (ht : p.token? (byteLength before) = some t) :
    dropBytes t.start (before ++ s) = s ∧ dropBytes t.stop (before ++ s) = rest := by
  obtain ⟨hstart, hstop, _⟩ := Piece.token?_span ht
  constructor
  · rw [hstart, Text.dropBytes_byteLength]
  · rw [hstop, ← Text.byteLength_append, ← h.append, ← List.append_assoc,
      Text.dropBytes_byteLength]

theorem Reads.explained {before s rest : List Char} {p : Piece κ φ} {t : Token κ}
    (h : Reads as s p rest) (hdistinct : (Lexicon.comment : κ) ≠ Lexicon.error)
    (hread : ∀ k c s r, as k c s r → k = readAs c)
    (ht : p.token? (byteLength before) = some t) : t.Explained readAs (before ++ s) := by
  obtain ⟨hstart, hstop⟩ := h.dropBytes_token ht
  obtain ⟨_, _, htext⟩ := Piece.token?_span ht
  have uncommented : gap? (κ := κ) (φ := φ) s = none →
      readComment (dropBytes t.start (before ++ s)) = none := by
    intro hgap
    rw [hstart]
    exact readComment_of_gap?_none hgap
  cases h with
  | gap hgap =>
    obtain ⟨rfl, _, _⟩ | ⟨r, rfl, hr⟩ := gap?_cases hgap
    · cases ht
    · cases ht
      refine .of_comment hdistinct rfl rfl ?_
      rw [hstart, hstop, htext]
      exact hr
  | token hgap hr has hcomment herror =>
    have hnone := uncommented hgap
    rw [hread _ _ _ _ has] at hr
    cases ht
    refine .of_read hcomment herror rfl hnone ?_
    rw [hstart, hstop, htext]
    exact hr
  | marked hgap _ =>
    have hnone := uncommented hgap
    cases ht
    exact .of_error hdistinct rfl rfl hnone
  | stray hgap _ =>
    have hnone := uncommented hgap
    cases ht
    exact .of_error hdistinct rfl rfl hnone

/-- Every token of a scan up to the end of the text agrees with the text. -/
theorem Scan.explained {s : List Char} {ps : List (Piece κ φ)} (h : Scan as s ps [])
    (hdistinct : (Lexicon.comment : κ) ≠ Lexicon.error)
    (hread : ∀ k c s r, as k c s r → k = readAs c) : ∀ t ∈ layOut 0 ps, t.Explained readAs s := by
  intro t ht
  obtain ⟨before, p, after, rfl, hp⟩ := mem_layOut.mp ht
  have htext := h.append
  rw [Piece.text_append, Piece.text_cons, List.append_assoc, List.append_assoc] at htext
  rw [Nat.zero_add] at hp
  rw [← htext]
  exact h.reads_of_mem.explained hdistinct hread hp

end Lexis

/-- In both languages a token is described just where it is in error, no comment is in error, and
the text of any other token is what the pattern of its category reads where the token begins. Only a
declaration has no pattern of its own: it is read by that of identifiers. -/
theorem tokens_explained (text : String) :
    (∀ t ∈ Program.tokens text, t.Explained Program.Category.readAs text.toList) ∧
      (∀ c, c ≠ .declaration → Program.Category.readAs c = c) ∧
      ∀ t ∈ Condition.tokens text, t.Explained id text.toList := by
  refine ⟨?_, ?_, ?_⟩
  · intro t ht
    exact (Program.scan_pieces text.toList).explained (by decide)
      (fun _ _ _ _ => Program.eq_readAs_of_recast) t (by simpa [Program.tokens] using ht)
  · intro c hc
    cases c with
    | declaration => exact absurd rfl hc
    | _ => rfl
  · intro t ht
    exact (Condition.scan_pieces text.toList).explained (by decide) (fun _ _ _ _ => id) t
      (by simpa [Condition.tokens] using ht)

end GraphScribe
