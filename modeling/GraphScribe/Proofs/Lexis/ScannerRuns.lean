import GraphScribe.Lexis.Scanner
import GraphScribe.Proofs.Token.Partition

/-! # Runs of a scanner

A host may ask a scanner for its steps in any order and with any arguments. Whatever it has asked
for, the cursor stands between two characters, and the tokens taken so far partition what lies before
it. Steps that take something move the cursor; those that decline, look ahead or change a token leave
it where it is. -/
namespace GraphScribe

open Text (byteLength)

variable {κ : Type}

theorem Text.ByteOf.append {pre run : List Char} {i : Nat} {c : Char}
    (h : Text.ByteOf (pre ++ run) i c) :
    Text.ByteOf pre i c ∨ (c ∈ run ∧ byteLength pre ≤ i ∧ i < byteLength (pre ++ run)) := by
  obtain ⟨before, after, hsplit, hlo, hhi⟩ := h
  have hlen := congrArg byteLength hsplit
  rw [Text.byteLength_append before, Text.byteLength_cons] at hlen
  by_cases hin : byteLength before < byteLength pre
  · have hsplit : [] ++ (pre ++ run) = before ++ c :: after := hsplit
    obtain ⟨u, v, hpre, rfl⟩ := Text.mem_run_of_offset hsplit (Nat.zero_le _) hin
    exact .inl ⟨_, v, hpre, hlo, hhi⟩
  · have hsplit : pre ++ (run ++ []) = before ++ c :: after := by rwa [List.append_nil]
    have hpos := c.utf8Size_pos
    obtain ⟨u, v, rfl, -⟩ := Text.mem_run_of_offset hsplit (by omega) (by omega)
    exact .inr ⟨List.mem_append_right _ List.mem_cons_self, by omega, by omega⟩

theorem Token.Verbatim.append {s : List Char} {t : Token κ} (h : t.Verbatim s) (run : List Char) :
    t.Verbatim (s ++ run) := by
  obtain ⟨before, after, rfl, hstart, hstop⟩ := h
  exact ⟨before, after ++ run, List.append_assoc _ _ _, hstart, hstop⟩

theorem Token.Verbatim.stop_le {s : List Char} {t : Token κ} (h : t.Verbatim s) :
    t.stop ≤ byteLength s := by
  obtain ⟨before, after, rfl, -, hstop⟩ := h
  rw [hstop, Text.byteLength_append (before ++ _)]
  exact Nat.le_add_right _ _

/-- What a token covers and stands for, whatever it counts as. -/
def Token.place (t : Token κ) : Nat × Nat × String := (t.start, t.stop, t.text)

namespace Tokens.Partition

variable {s : List Char} {ts us : Tokens κ}

theorem nil : Tokens.Partition [] (#[] : Tokens κ) where
  nonempty := List.forall_mem_nil _
  ordered := .nil
  verbatim := List.forall_mem_nil _
  blank_outside := by
    rintro i c ⟨before, after, hsplit, -⟩
    cases before <;> cases hsplit

theorem blanks (h : ts.Partition s) {run : List Char} (hrun : ∀ c ∈ run, Text.isBlank c = true) :
    ts.Partition (s ++ run) where
  nonempty := h.nonempty
  ordered := h.ordered
  verbatim t ht := (h.verbatim t ht).append run
  blank_outside i c hbyte hout := by
    rcases hbyte.append with hbefore | ⟨hmem, -⟩
    · exact h.blank_outside i c hbefore hout
    · exact hrun c hmem

theorem push (h : ts.Partition s) {run : List Char} (hrun : run ≠ []) (c : κ)
    (description : Option String) :
    Tokens.Partition (s ++ run) (ts.push (Token.ofRun c (byteLength s) run description)) where
  nonempty := by
    have hpos := Text.byteLength_pos hrun
    rw [Array.toList_push, List.forall_mem_append, List.forall_mem_singleton]
    exact ⟨h.nonempty, Nat.lt_add_of_pos_right hpos⟩
  ordered := by
    rw [Array.toList_push, List.pairwise_append]
    refine ⟨h.ordered, List.pairwise_singleton _ _, ?_⟩
    intro t ht u hu
    rw [List.mem_singleton.mp hu]
    exact (h.verbatim t ht).stop_le
  verbatim := by
    rw [Array.toList_push, List.forall_mem_append, List.forall_mem_singleton]
    refine ⟨fun t ht => (h.verbatim t ht).append run, s, [], ?_, rfl, ?_⟩
    · simp [Token.ofRun]
    · simp [Token.ofRun]
  blank_outside i a hbyte hout := by
    rw [Array.toList_push, List.forall_mem_append, List.forall_mem_singleton] at hout
    rcases hbyte.append with hbefore | ⟨-, hlo, hhi⟩
    · exact h.blank_outside i a hbefore hout.1
    · -- the bytes of the run are those of the new token
      exfalso
      have hnew := (Token.contains_eq_false _ _).mp hout.2
      rw [Text.byteLength_append] at hhi
      simp only [Token.ofRun] at hnew
      omega

theorem of_places (h : ts.Partition s)
    (hplaces : us.toList.map Token.place = ts.toList.map Token.place) : us.Partition s := by
  have transfer : ∀ {ts us : Tokens κ}, us.toList.map Token.place = ts.toList.map Token.place →
      ∀ P : Nat × Nat × String → Prop, (∀ t ∈ ts.toList, P t.place) → ∀ t ∈ us.toList, P t.place := by
    intro ts us hplaces P hts
    rw [← List.forall_mem_map, hplaces, List.forall_mem_map]
    exact hts
  refine ⟨⟨?_, ?_⟩, ?_, ?_⟩
  · exact transfer hplaces (fun p => p.1 < p.2.1) h.nonempty
  · have hordered := List.pairwise_map (f := Token.place) (R := fun p q => p.2.1 ≤ q.1)
      |>.mpr h.ordered
    rw [← hplaces] at hordered
    exact List.pairwise_map.mp hordered
  · exact transfer hplaces (fun p => ∃ before after, s = before ++ p.2.2.toList ++ after ∧
      p.1 = byteLength before ∧ p.2.1 = byteLength (before ++ p.2.2.toList)) h.verbatim
  · intro i c hbyte hout
    refine h.blank_outside i c hbyte ?_
    exact transfer hplaces.symm (fun p => (decide (p.1 ≤ i) && decide (i < p.2.1)) = false) hout

theorem modify (h : ts.Partition s) (index : Nat) {change : Token κ → Token κ}
    (hchange : ∀ t, (change t).place = t.place) :
    Tokens.Partition s (ts.modify index change) := by
  refine h.of_places ?_
  rw [Array.toList_modify]
  refine List.ext_getElem? fun i => ?_
  rw [List.getElem?_map, List.getElem?_map, List.getElem?_modify]
  cases ts.toList[i]? with
  | none => rfl
  | some t => by_cases hi : index = i <;> simp [hi, hchange]

end Tokens.Partition

inductive ScannerStep (κ : Type) where
  | blanks
  | comment
  | gaps
  | recover (expected : String)
  | take (c : κ)
  | takeAny (accept : κ → Bool)
  | peek (c : κ)
  | peekText (c : κ)
  | markError (index : Nat) (description : String)
  | recategorize (index : Nat) (c : κ)

namespace Scanner

inductive Report where
  | success
  | failure
  | silent
  | seen (found : Bool)
  | seenText (found : Option (List Char))
  deriving DecidableEq, Repr

def attempt (s : Scanner κ) : Option (Scanner κ) → Scanner κ × Report
  | some t => (t, .success)
  | none => (s, .failure)

variable [DecidableEq κ] [Lexicon κ]

def perform (s : Scanner κ) : ScannerStep κ → Scanner κ × Report
  | .blanks => s.attempt s.blanks?
  | .comment => s.attempt s.comment?
  | .gaps => (s.gaps, .silent)
  | .recover expected => (s.recover expected, .silent)
  | .take c => s.attempt (s.take? c)
  | .takeAny accept => s.attempt (s.takeAny? accept)
  | .peek c => (s, .seen (s.peek? c).isSome)
  | .peekText c => (s, .seenText (s.peek? c))
  | .markError index description => (s.markError index description, .silent)
  | .recategorize index c => (s.recategorize index c, .silent)

def run (source : List Char) (steps : List (ScannerStep κ)) : Scanner κ :=
  steps.foldl (fun s step => (s.perform step).1) (.start source)

omit [DecidableEq κ] [Lexicon κ]

/-- The second scanner has taken a run of characters off the rest of the first. -/
inductive Takes (s : Scanner κ) : Scanner κ → Prop where
  | blanks {cut : Lexis.Cut} : cut.1 ++ cut.2 = s.rest → cut.1 ≠ [] →
      (∀ c ∈ cut.1, Text.isBlank c = true) → Takes s (s.skip cut)
  | token {cut : Lexis.Cut} (c : κ) (description : Option String) : cut.1 ++ cut.2 = s.rest →
      cut.1 ≠ [] → Takes s (s.push c description cut)

section Takes

variable {s t : Scanner κ}

theorem Takes.position_lt (h : s.Takes t) : s.position < t.position := by
  cases h with
  | blanks _ hrun => exact Nat.lt_add_of_pos_right (Text.byteLength_pos hrun)
  | token _ _ _ hrun => exact Nat.lt_add_of_pos_right (Text.byteLength_pos hrun)

theorem takes_of_blanks? (h : s.blanks? = some t) : s.Takes t := by
  rw [blanks?] at h
  split at h
  · cases h
  · rename_i run hne
    cases h
    refine .blanks List.takeWhile_append_dropWhile hne ?_
    exact fun c hc => List.all_eq_true.mp List.all_takeWhile c hc

variable [Lexicon κ]

theorem takes_of_comment? (h : s.comment? = some t) : s.Takes t := by
  obtain ⟨cut, hcut, rfl⟩ := Option.map_eq_some_iff.mp h
  exact .token _ _ (Lexis.readComment_append hcut) (Lexis.readComment_ne_nil hcut)

theorem recover_of_atEnd (hend : s.rest = []) (expected : String) : s.recover expected = s := by
  rw [recover, hend]
  rfl

theorem takes_recover (hrest : s.rest ≠ []) (expected : String) : s.Takes (s.recover expected) := by
  rw [recover]
  split
  · rename_i hnone
    cases hs : s.rest with
    | nil => exact absurd hs hrest
    | cons c rest =>
      rw [hs] at hnone
      cases hnone
  · rename_i cut hcut
    exact .token _ _ (Lexis.readStray_append hcut) (Lexis.readStray_ne_nil hcut)

theorem takes_of_takeAny? {accept : κ → Bool} (h : s.takeAny? accept = some t) : s.Takes t := by
  obtain ⟨r, hr, rfl⟩ := Option.map_eq_some_iff.mp h
  obtain ⟨p, _, _, hread⟩ := Lexicon.readAny?_eq_some hr
  exact .token _ _ (Lexis.Pattern.read_append hread) (Lexis.Pattern.read_ne_nil hread)

variable [DecidableEq κ]

theorem takes_of_take? {c : κ} (h : s.take? c = some t) : s.Takes t := by
  obtain ⟨cut, hcut, rfl⟩ := Option.map_eq_some_iff.mp h
  exact .token _ _ (Lexicon.read?_append hcut) (Lexicon.read?_ne_nil hcut)

end Takes

/-- The outcome of a step that may decline: it has taken something, or nothing has changed. -/
inductive Attempted (s : Scanner κ) : Scanner κ × Report → Prop where
  | success {t : Scanner κ} : s.Takes t → Attempted s (t, .success)
  | failure : Attempted s (s, .failure)

theorem attempted {s : Scanner κ} {r : Option (Scanner κ)} (h : ∀ t, r = some t → s.Takes t) :
    s.Attempted (s.attempt r) := by
  cases r with
  | some t => exact .success (h t rfl)
  | none => exact .failure

section Perform

variable [DecidableEq κ] [Lexicon κ] {s : Scanner κ} {step : ScannerStep κ}

theorem attempted_perform (h : (s.perform step).2 = .success ∨ (s.perform step).2 = .failure) :
    s.Attempted (s.perform step) := by
  cases step with
  | blanks => exact attempted fun _ => takes_of_blanks?
  | comment => exact attempted fun _ => takes_of_comment?
  | take c => exact attempted fun _ => takes_of_take?
  | takeAny accept => exact attempted fun _ => takes_of_takeAny?
  | gaps | recover | peek | peekText | markError | recategorize => rcases h with h | h <;> cases h

theorem takes_of_success (h : (s.perform step).2 = .success) :
    s.Takes (s.perform step).1 := by
  have hattempted := attempted_perform (.inl h)
  generalize s.perform step = outcome at h hattempted
  cases hattempted with
  | success htakes => exact htakes
  | failure => cases h

theorem perform_of_failure (h : (s.perform step).2 = .failure) : (s.perform step).1 = s := by
  have hattempted := attempted_perform (.inr h)
  generalize s.perform step = outcome at h hattempted
  cases hattempted with
  | success => cases h
  | failure => rfl

end Perform

/-- The cursor stands in the text, and the tokens partition what lies before it. -/
def Stands (source : List Char) (s : Scanner κ) : Prop :=
  s.source = source ∧ ∃ before, source = before ++ s.rest ∧ s.position = byteLength before ∧
    s.tokens.Partition before

section Stands

variable {source : List Char} {s t : Scanner κ}

theorem stands_start : (start source : Scanner κ).Stands source := ⟨rfl, [], rfl, rfl, .nil⟩

theorem Takes.stands (h : s.Takes t) (hs : s.Stands source) : t.Stands source := by
  obtain ⟨hself, before, hsource, hposition, htokens⟩ := hs
  have hskip : ∀ {cut : Lexis.Cut}, cut.1 ++ cut.2 = s.rest → source = (before ++ cut.1) ++ cut.2 ∧
      s.position + byteLength cut.1 = byteLength (before ++ cut.1) := by
    intro cut hcut
    rw [List.append_assoc, hcut, Text.byteLength_append, hposition]
    exact ⟨hsource, rfl⟩
  cases h with
  | @blanks cut hcut _ hblank =>
    obtain ⟨hsplit, hmoved⟩ := hskip hcut
    exact ⟨hself, before ++ cut.1, hsplit, hmoved, htokens.blanks hblank⟩
  | @token cut c description hcut hrun =>
    obtain ⟨hsplit, hmoved⟩ := hskip hcut
    refine ⟨hself, before ++ cut.1, hsplit, hmoved, ?_⟩
    rw [push, hposition]
    exact htokens.push hrun c description

theorem Stands.modify (h : s.Stands source) (index : Nat) {change : Token κ → Token κ}
    (hchange : ∀ t, (change t).place = t.place) :
    Stands source { s with tokens := s.tokens.modify index change } := by
  obtain ⟨hself, before, hsource, hposition, htokens⟩ := h
  exact ⟨hself, before, hsource, hposition, htokens.modify index hchange⟩

theorem Attempted.stands {outcome : Scanner κ × Report} (h : s.Attempted outcome)
    (hs : s.Stands source) : outcome.1.Stands source := by
  cases h with
  | success htakes => exact htakes.stands hs
  | failure => exact hs

variable [Lexicon κ]

theorem Stands.gaps (h : s.Stands source) : s.gaps.Stands source := by
  fun_induction Scanner.gaps s with
  | case1 s t ht _ ih => exact ih ((takes_of_blanks? ht).stands h)
  | case2 s _ t ht _ ih => exact ih ((takes_of_comment? ht).stands h)
  | case3 s => exact h

theorem Stands.recover (h : s.Stands source) (expected : String) :
    (s.recover expected).Stands source := by
  by_cases hrest : s.rest = []
  · rw [recover_of_atEnd hrest]
    exact h
  · exact (takes_recover hrest expected).stands h

variable [DecidableEq κ]

theorem Stands.perform (h : s.Stands source) (step : ScannerStep κ) :
    (s.perform step).1.Stands source := by
  cases step with
  | blanks => exact (attempted fun _ => takes_of_blanks?).stands h
  | comment => exact (attempted fun _ => takes_of_comment?).stands h
  | gaps => exact h.gaps
  | recover expected => exact h.recover expected
  | take c => exact (attempted fun _ => takes_of_take?).stands h
  | takeAny accept => exact (attempted fun _ => takes_of_takeAny?).stands h
  | peek c => exact h
  | peekText c => exact h
  | markError index description => exact h.modify index fun _ => rfl
  | recategorize index c => exact h.modify index fun _ => rfl

theorem stands_run (source : List Char) (steps : List (ScannerStep κ)) :
    (run source steps).Stands source := by
  have keep : ∀ s : Scanner κ, s.Stands source →
      (steps.foldl (fun s step => (s.perform step).1) s).Stands source := by
    induction steps with
    | nil => exact fun s h => h
    | cons step steps ih => exact fun s h => ih _ (h.perform step)
  exact keep _ stands_start

end Stands

/-- The cursor is a character boundary of the text, the tokens lie before it, and so does nothing
else but blanks. -/
structure InOrder (s : Scanner κ) : Prop extends s.tokens.Ordered where
  boundary : ∃ before, s.source = before ++ s.rest ∧ s.position = byteLength before
  verbatim : ∀ t ∈ s.tokens.toList, t.Verbatim s.source
  behind : ∀ t ∈ s.tokens.toList, t.stop ≤ s.position
  blank_outside : ∀ i c, Text.ByteOf s.source i c → i < s.position →
    (∀ t ∈ s.tokens.toList, t.contains i = false) → Text.isBlank c = true

theorem Stands.inOrder {source : List Char} {s : Scanner κ} (h : s.Stands source) :
    s.InOrder := by
  obtain ⟨rfl, before, hsource, hposition, htokens⟩ := h
  refine ⟨htokens.toOrdered, ⟨before, hsource, hposition⟩, ?_, ?_, ?_⟩
  · intro t ht
    rw [hsource]
    exact (htokens.verbatim t ht).append _
  · intro t ht
    rw [hposition]
    exact (htokens.verbatim t ht).stop_le
  · intro i c hbyte hbefore hout
    rw [hsource] at hbyte
    rcases hbyte.append with hbyte | ⟨-, hlo, -⟩
    · exact htokens.blank_outside i c hbyte hout
    · omega

variable [DecidableEq κ] [Lexicon κ]

structure Moves (s : Scanner κ) : Prop where
  success : ∀ step, (s.perform step).2 = .success → s.position < (s.perform step).1.position
  failure : ∀ step, (s.perform step).2 = .failure → (s.perform step).1 = s
  recover : ∀ expected, s.position < byteLength s.source →
    s.position < (s.perform (.recover expected)).1.position
  peek : ∀ c, (s.perform (.peek c)).1 = s ∧ (s.perform (.peekText c)).1 = s
  change : ∀ index description c,
    (s.perform (.markError index description)).1.position = s.position ∧
      (s.perform (.recategorize index c)).1.position = s.position

theorem Stands.moves {source : List Char} {s : Scanner κ} (h : s.Stands source) : s.Moves where
  success _ hsuccess := (takes_of_success hsuccess).position_lt
  failure _ hfailure := perform_of_failure hfailure
  recover expected hend := by
    obtain ⟨rfl, before, hsource, hposition, -⟩ := h
    refine (takes_recover ?_ expected).position_lt
    intro hrest
    rw [hsource, hrest, List.append_nil, hposition] at hend
    exact Nat.lt_irrefl _ hend
  peek _ := ⟨rfl, rfl⟩
  change _ _ _ := ⟨rfl, rfl⟩

/-- After any steps over any text the scanner is in order, a further step that reports success or
recovers before the end moves the cursor, and one that fails, peeks or changes a token does not. -/
theorem run_inOrder_moves (source : List Char) (steps : List (ScannerStep κ)) :
    (run source steps).source = source ∧ (run source steps).InOrder ∧
      (run source steps).Moves :=
  have h := stands_run source steps
  ⟨h.1, h.inOrder, h.moves⟩

end Scanner

end GraphScribe
