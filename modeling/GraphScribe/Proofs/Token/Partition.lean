import GraphScribe.Lexis.Piece
import GraphScribe.Proofs.Text.Offsets
import GraphScribe.Proofs.Token.Lookup
import GraphScribe.Text.Blank

/-! # Partition of a text into tokens

A token sequence partitions a text without loss when its tokens stand in the text verbatim, in
order and without overlap, and leave out nothing but blank characters. The pieces that a reader cuts
a text into give such a sequence whenever blank pieces are blank and the others are not empty. -/
namespace GraphScribe

open Text (byteLength)

variable {κ : Type}

/-- The span of the token begins and ends between characters and cuts its text out of `s`. -/
def Token.Verbatim (s : List Char) (t : Token κ) : Prop :=
  ∃ before after, s = before ++ t.text.toList ++ after ∧
    t.start = byteLength before ∧ t.stop = byteLength (before ++ t.text.toList)

def Text.ByteOf (s : List Char) (i : Nat) (c : Char) : Prop :=
  ∃ before after, s = before ++ c :: after ∧
    byteLength before ≤ i ∧ i < byteLength before + c.utf8Size

theorem Token.contains_iff (t : Token κ) (i : Nat) :
    t.contains i = true ↔ t.start ≤ i ∧ i < t.stop := by
  simp [Token.contains]

theorem Token.contains_eq_false (t : Token κ) (i : Nat) :
    t.contains i = false ↔ i < t.start ∨ t.stop ≤ i := by
  rw [← Bool.not_eq_true, Token.contains_iff]
  omega

structure Tokens.Partition (s : List Char) (ts : Tokens κ) : Prop extends ts.Ordered where
  verbatim : ∀ t ∈ ts.toList, t.Verbatim s
  blank_outside : ∀ i c, Text.ByteOf s i c → (∀ t ∈ ts.toList, t.contains i = false) →
    Text.isBlank c = true

namespace Lexis

variable {φ : Type}

/-- A blank piece holds blanks only, and no other piece is empty. -/
def Piece.Proper : Piece κ φ → Prop
  | .blank r => ∀ c ∈ r, Text.isBlank c = true
  | .token _ r => r ≠ []
  | .fault _ r => r ≠ []

variable [Lexicon κ] [Describable φ]

def Piece.token? (start : Nat) : Piece κ φ → Option (Token κ)
  | .blank _ => none
  | .token c r => some (Token.ofRun c start r none)
  | .fault f r =>
    some (Token.ofRun Lexicon.error start r
      (some (Describable.describe f (String.ofList r) start)))

theorem layOut_cons (start : Nat) (p : Piece κ φ) (ps : List (Piece κ φ)) :
    layOut start (p :: ps) =
      (p.token? start).toList ++ layOut (start + byteLength p.run) ps := by
  cases p <;> rfl

theorem layOut_append (start : Nat) (ps qs : List (Piece κ φ)) :
    layOut start (ps ++ qs) = layOut start ps ++ layOut (start + byteLength (Piece.text ps)) qs := by
  induction ps generalizing start with
  | nil => rfl
  | cons p ps ih =>
    rw [List.cons_append, layOut_cons, layOut_cons, ih, Piece.text_cons, Text.byteLength_append,
      List.append_assoc, Nat.add_assoc]

theorem filterMap_layOut {β : Type} {f : Token κ → Option β} {g : Piece κ φ → Option β}
    {ps : List (Piece κ φ)} (h : ∀ p ∈ ps, ∀ start, (p.token? start).bind f = g p) (start : Nat) :
    (layOut start ps).filterMap f = ps.filterMap g := by
  induction ps generalizing start with
  | nil => rfl
  | cons p ps ih =>
    obtain ⟨hp, hps⟩ := List.forall_mem_cons.mp h
    rw [layOut_cons, List.filterMap_append, ih hps, List.filterMap_cons, ← hp start]
    cases p.token? start with
    | none => rfl
    | some t => cases hf : f t <;> simp [hf]

/-- Every token comes from a piece, and begins where the pieces before that one end. -/
theorem mem_layOut {start : Nat} {ps : List (Piece κ φ)} {t : Token κ} :
    t ∈ layOut start ps ↔ ∃ before p after, ps = before ++ p :: after ∧
      p.token? (start + byteLength (Piece.text before)) = some t := by
  constructor
  · intro h
    induction ps generalizing start with
    | nil => cases h
    | cons p ps ih =>
      rw [layOut_cons, List.mem_append] at h
      rcases h with h | h
      · exact ⟨[], p, ps, rfl, by simpa using h⟩
      · obtain ⟨before, q, after, rfl, hq⟩ := ih h
        refine ⟨p :: before, q, after, rfl, ?_⟩
        rw [Piece.text_cons, Text.byteLength_append, ← Nat.add_assoc]
        exact hq
  · rintro ⟨before, p, after, rfl, hp⟩
    rw [layOut_append, List.mem_append]
    right
    rw [layOut_cons, hp]
    simp

theorem layOut_split {start : Nat} {ps : List (Piece κ φ)} {ts us : List (Token κ)} {t : Token κ}
    (h : layOut start ps = ts ++ t :: us) : ∃ before p after, ps = before ++ p :: after ∧
      layOut start before = ts ∧ p.token? (start + byteLength (Piece.text before)) = some t := by
  induction ps generalizing start ts with
  | nil => simp [layOut] at h
  | cons p ps ih =>
    rw [layOut_cons] at h
    have later : ∀ {vs}, layOut (start + byteLength p.run) ps = vs ++ t :: us →
        (p.token? start).toList ++ vs = ts → ∃ before q after, p :: ps = before ++ q :: after ∧
          layOut start before = ts ∧
          q.token? (start + byteLength (Piece.text before)) = some t := by
      intro vs hmore hts
      obtain ⟨before, q, after, rfl, hb, hq⟩ := ih hmore
      refine ⟨p :: before, q, after, rfl, ?_, ?_⟩
      · rw [layOut_cons, hb, hts]
      · rw [Piece.text_cons, Text.byteLength_append, ← Nat.add_assoc]
        exact hq
    cases htok : p.token? start with
    | none =>
      rw [htok] at h later
      exact later h rfl
    | some u =>
      rw [htok] at h later
      cases ts with
      | nil =>
        cases h
        exact ⟨[], p, ps, rfl, rfl, htok⟩
      | cons v ts =>
        obtain ⟨rfl, hmore⟩ := List.cons.inj h
        exact later hmore rfl

theorem layOut_after {start : Nat} {ps qs : List (Piece κ φ)} {p : Piece κ φ} {t : Token κ}
    {us : List (Token κ)} (hp : p.token? (start + byteLength (Piece.text ps)) = some t)
    (h : layOut start (ps ++ p :: qs) = layOut start ps ++ t :: us) :
    layOut (start + byteLength (Piece.text ps) + byteLength p.run) qs = us := by
  rw [layOut_append, layOut_cons, hp] at h
  exact (List.cons.inj (List.append_cancel_left h)).2

theorem last_of_layOut {start : Nat} {ps : List (Piece κ φ)} {t : Token κ}
    (h : (layOut start ps).getLast? = some t) : ∃ before p after, ps = before ++ p :: after ∧
      p.token? (start + byteLength (Piece.text before)) = some t ∧
      ∀ q ∈ after, ∃ r, q = .blank r := by
  induction ps generalizing start with
  | nil => cases h
  | cons p ps ih =>
    rw [layOut_cons] at h
    cases hmore : (layOut (start + byteLength p.run) ps).getLast? with
    | some u =>
      rw [List.getLast?_append, hmore] at h
      obtain ⟨before, q, after, rfl, hq, hblank⟩ := ih (hmore.trans h)
      refine ⟨p :: before, q, after, rfl, ?_, hblank⟩
      rw [Piece.text_cons, Text.byteLength_append, ← Nat.add_assoc]
      exact hq
    | none =>
      have hnone := List.getLast?_eq_none_iff.mp hmore
      rw [hnone, List.append_nil] at h
      refine ⟨[], p, ps, rfl, Option.mem_toList.mp (List.mem_of_getLast? h), ?_⟩
      intro q hq
      obtain ⟨before, after, rfl⟩ := List.append_of_mem hq
      cases q with
      | blank r => exact ⟨r, rfl⟩
      | token c r => simp [layOut_append, layOut] at hnone
      | fault f r => simp [layOut_append, layOut] at hnone

theorem Piece.token?_span {start : Nat} {p : Piece κ φ} {t : Token κ}
    (h : p.token? start = some t) :
    t.start = start ∧ t.stop = start + byteLength p.run ∧ t.text.toList = p.run := by
  cases p with
  | blank r => cases h
  | token c r => cases h; simp [Token.ofRun]
  | fault f r => cases h; simp [Token.ofRun]

/-- The piece of a token that is not in error is of the category of the token. -/
theorem Piece.eq_token_of_token? {start : Nat} {p : Piece κ φ} {t : Token κ}
    (h : p.token? start = some t) (hc : t.category ≠ Lexicon.error) :
    p = .token t.category t.text.toList := by
  cases p with
  | blank r => cases h
  | token c r =>
    cases h
    simp [Token.ofRun]
  | fault f r =>
    cases h
    exact absurd rfl hc

theorem le_start_of_mem_layOut {start : Nat} {ps : List (Piece κ φ)} {t : Token κ}
    (h : t ∈ layOut start ps) : start ≤ t.start := by
  obtain ⟨before, p, after, _, hp⟩ := mem_layOut.mp h
  rw [(Piece.token?_span hp).1]
  exact Nat.le_add_right _ _

theorem layOut_ordered (start : Nat) (ps : List (Piece κ φ)) :
    (layOut start ps).Pairwise fun a b => a.stop ≤ b.start := by
  induction ps generalizing start with
  | nil => exact List.Pairwise.nil
  | cons p ps ih =>
    rw [layOut_cons, List.pairwise_append]
    refine ⟨?_, ih _, ?_⟩
    · cases p.token? start <;> simp
    · intro a ha b hb
      have hspan := Piece.token?_span (Option.mem_toList.mp ha)
      have hle := le_start_of_mem_layOut hb
      omega

theorem verbatim_of_mem_layOut {ps : List (Piece κ φ)} {t : Token κ} (h : t ∈ layOut 0 ps) :
    t.Verbatim (Piece.text ps) := by
  obtain ⟨before, p, after, rfl, hp⟩ := mem_layOut.mp h
  obtain ⟨hstart, hstop, htext⟩ := Piece.token?_span hp
  refine ⟨Piece.text before, Piece.text after, ?_, ?_, ?_⟩
  · rw [htext, Piece.text_append, Piece.text_cons, List.append_assoc]
  · omega
  · rw [htext, Text.byteLength_append]
    omega

theorem blank_of_uncovered {pre : List Char} {ps : List (Piece κ φ)}
    (hps : ∀ p ∈ ps, p.Proper) {before after : List Char} {c : Char} {i : Nat}
    (hs : pre ++ Piece.text ps = before ++ c :: after)
    (hpre : byteLength pre ≤ byteLength before)
    (hlo : byteLength before ≤ i) (hhi : i < byteLength before + c.utf8Size)
    (hout : ∀ t ∈ layOut (byteLength pre) ps, t.contains i = false) :
    Text.isBlank c = true := by
  induction ps generalizing pre with
  | nil =>
    have hlen := congrArg byteLength hs
    have hpos := c.utf8Size_pos
    simp at hlen
    omega
  | cons p ps ih =>
    rw [Piece.text_cons] at hs
    by_cases hin : byteLength before < byteLength (pre ++ p.run)
    · obtain ⟨u, v, hrun, hbefore⟩ := Text.mem_run_of_offset hs hpre hin
      cases p with
      | blank r => exact hps _ List.mem_cons_self c (by simp [show r = u ++ c :: v from hrun])
      | token k r | fault f r =>
        -- the byte lies in the run of this piece, which is a token
        exfalso
        have hmem := hout _ (by rw [layOut_cons]; exact List.mem_append_left _ List.mem_cons_self)
        have hr : byteLength r = byteLength u + (c.utf8Size + byteLength v) := by
          rw [show r = u ++ c :: v from hrun, Text.byteLength_append, Text.byteLength_cons]
        rw [hbefore, Text.byteLength_append] at hlo hhi
        rw [Token.contains_eq_false] at hmem
        simp only [Token.ofRun] at hmem
        omega
    · have hs : (pre ++ p.run) ++ Piece.text ps = before ++ c :: after := by
        rw [List.append_assoc]
        exact hs
      refine ih (fun q hq => hps q (List.mem_cons_of_mem _ hq)) hs ?_ ?_
      · omega
      · intro t ht
        apply hout
        rw [layOut_cons, List.mem_append]
        right
        rw [Text.byteLength_append] at ht
        exact ht

/-- The tokens of proper pieces partition the text that the pieces make up. -/
theorem layOut_partition {ps : List (Piece κ φ)} (hps : ∀ p ∈ ps, p.Proper) :
    Tokens.Partition (Piece.text ps) (layOut 0 ps).toArray where
  nonempty := by
    intro t ht
    obtain ⟨before, p, after, rfl, hp⟩ := mem_layOut.mp (by simpa using ht)
    obtain ⟨hstart, hstop, _⟩ := Piece.token?_span hp
    have hproper := hps p (by simp)
    cases p with
    | blank r => cases hp
    | token c r | fault f r =>
      have := Text.byteLength_pos hproper
      simp only [Piece.run_token, Piece.run_fault] at hstop
      omega
  ordered := by simpa using layOut_ordered 0 ps
  verbatim := fun t ht => verbatim_of_mem_layOut (by simpa using ht)
  blank_outside := by
    rintro i c ⟨before, after, hs, hlo, hhi⟩ hout
    have hs : [] ++ Piece.text ps = before ++ c :: after := hs
    exact blank_of_uncovered hps hs (Nat.zero_le _) hlo hhi (by simpa using hout)

end Lexis

end GraphScribe
