import GraphScribe.Proofs.Token.Partition

/-! # Tokens moved along their text

A token that stands later in a text is the same token at greater offsets. Only a description that
quotes the offset of its token has to change with it. -/
namespace GraphScribe

variable {κ φ : Type}

namespace Token

def quotation (text : String) (offset : Nat) : String :=
  "Unexpected token " ++ text ++ " at position " ++ toString offset ++ ". "

/-- The description `d` of the token, for the token `n` bytes further on. -/
def requote (t : Token κ) (n : Nat) (d : String) : String :=
  let old := (quotation t.text t.start).toList
  if old.isPrefixOf d.toList then
    quotation t.text (t.start + n) ++ String.ofList (d.toList.drop old.length)
  else d

/-- The token `n` bytes further on, described as it was. -/
def move (n : Nat) (t : Token κ) : Token κ :=
  { t with start := t.start + n, stop := t.stop + n }

def shift (n : Nat) (t : Token κ) : Token κ :=
  { t.move n with description := t.description.map (t.requote n) }

theorem prefix_lead (a b c d e : String) : a.toList <+: (a ++ b ++ c ++ d ++ e).toList := by
  simp only [String.append_assoc, String.toList_append]
  exact List.prefix_append _ _

theorem requote_quotation (t : Token κ) (n : Nat) (rest : String) :
    t.requote n (quotation t.text t.start ++ rest) = quotation t.text (t.start + n) ++ rest := by
  simp [requote, String.toList_append]

theorem requote_of_other (t : Token κ) (n : Nat) {d : String}
    (h : ¬"Unexpected token ".toList <+: d.toList) : t.requote n d = d := by
  have hold : ¬(quotation t.text t.start).toList <+: d.toList :=
    mt (prefix_lead _ _ _ _ _).trans h
  simp [requote, List.isPrefixOf_iff_prefix, hold]

theorem ofRun_shift (c : κ) (start n : Nat) (run : List Char) (d : Option String) :
    (ofRun c start run d).shift n =
      ofRun c (start + n) run (d.map ((ofRun c start run d).requote n)) := by
  simp [ofRun, shift, move, Nat.add_right_comm]

end Token

namespace Lexis

variable [Lexicon κ] [Describable φ]

/-- The tokens of pieces that begin `n` bytes further on, if every cause of error is described there
as it was, with the new offset. -/
theorem layOut_shift (n : Nat)
    (h : ∀ (f : φ) start r d, (Token.ofRun (Lexicon.error : κ) start r d).requote n
      (Describable.describe f (String.ofList r) start) =
        Describable.describe f (String.ofList r) (start + n))
    (start : Nat) (ps : List (Piece κ φ)) :
    layOut (start + n) ps = (layOut start ps).map (Token.shift n) := by
  induction ps generalizing start with
  | nil => rfl
  | cons p ps ih =>
    have hnext : start + n + Text.byteLength p.run = start + Text.byteLength p.run + n := by omega
    rw [layOut_cons, layOut_cons, List.map_append, hnext, ih]
    cases p with
    | blank r => rfl
    | token c r => simp [Piece.token?, Token.ofRun_shift]
    | fault f r => simp [Piece.token?, Token.ofRun_shift, h]

end Lexis

end GraphScribe
