import GraphScribe.Editor.Buffer
import GraphScribe.Proofs.Editor.Parsing

/-! # Skipped parses do not show

A session skips a parse of the text it has parsed last. A host that remembers only the text it handed
over last and the text of the last parse can foretell every answer: the tokens are those of a new
session that parses the text once, and the status tells whether the two texts agree. The same holds
of a buffer, whose styles and highlights leave the session alone. -/
namespace GraphScribe

variable {κ : Type}

namespace Session

def fresh [Language κ] (text : String) : Tokens κ := (({} : Session κ).parseText text).1.tokens

namespace Edit

def textAfter (current : String) : Edit → String
  | setText text => text
  | parse => current
  | parseText text => text

def parses : Edit → Bool
  | setText _ => false
  | parse => true
  | parseText _ => true

end Edit

/-- What a host remembers of its edits. -/
structure Memory where
  text : String := ""
  /-- The text that was at hand at the last parse. -/
  parsed : Option String := none
  deriving DecidableEq, Repr

def Memory.note (m : Memory) (e : Edit) : Memory where
  text := e.textAfter m.text
  parsed := if e.parses then some (e.textAfter m.text) else m.parsed

variable [Language κ]

def status? (s : Session κ) : Edit → Option ParseStatus
  | .setText _ => none
  | .parse => some s.parse.2
  | .parseText text => some (s.parseText text).2

def statuses : Session κ → List Edit → List ParseStatus
  | _, [] => []
  | s, e :: edits => (s.status? e).toList ++ statuses (s.edit e) edits

theorem fresh_eq (text : String) : (fresh text : Tokens κ) = Language.tokenize text := rfl

theorem parse_text (s : Session κ) : s.parse.1.text = s.text := by
  unfold parse
  split <;> rfl

theorem parse_parsed (s : Session κ) : s.parse.1.parsed = some s.text := by
  unfold parse
  split
  · assumption
  · rfl

theorem parse_status (s : Session κ) : s.parse.2 = .unchanged ↔ s.parsed = some s.text := by
  unfold parse
  split
  · rename_i hsame
    exact iff_of_true rfl hsame
  · rename_i hdiffers
    exact iff_of_false ParseStatus.noConfusion hdiffers

theorem parse_passes (s : Session κ) :
    s.parse.1.passes = s.passes + [s.parse.2].count .reparsed := by
  unfold parse
  split <;> rfl

/-- The session holds what the host remembers, and its tokens are those of the text parsed last. -/
structure Recalls (s : Session κ) (m : Memory) : Prop where
  text : s.text = m.text
  parsed : s.parsed = m.parsed
  current : s.Current

theorem recalls_new : ({} : Session κ).Recalls {} := by
  refine ⟨rfl, rfl, ?_⟩
  intro text htext
  cases htext

theorem Recalls.edit {s : Session κ} {m : Memory} (h : s.Recalls m) (e : Edit) :
    (s.edit e).Recalls (m.note e) where
  text := by
    cases e with
    | setText text => rfl
    | parse => exact (parse_text s).trans h.text
    | parseText text => exact parse_text (s.setText text)
  parsed := by
    cases e with
    | setText text => exact h.parsed
    | parse => exact (parse_parsed s).trans (congrArg some h.text)
    | parseText text => exact parse_parsed (s.setText text)
  current := edit_current h.current e

theorem Recalls.edits {s : Session κ} {m : Memory} (h : s.Recalls m) (edits : List Edit) :
    (edits.foldl Session.edit s).Recalls (edits.foldl Memory.note m) := by
  induction edits generalizing s m with
  | nil => exact h
  | cons e edits ih => exact ih (h.edit e)

theorem edit_passes (s : Session κ) (e : Edit) :
    (s.edit e).passes = s.passes + (s.status? e).toList.count .reparsed := by
  cases e with
  | setText text => rfl
  | parse => exact parse_passes s
  | parseText text => exact parse_passes (s.setText text)

theorem edits_passes (s : Session κ) (edits : List Edit) :
    (edits.foldl edit s).passes = s.passes + (s.statuses edits).count .reparsed := by
  induction edits generalizing s with
  | nil => rfl
  | cons e edits ih =>
    rw [List.foldl_cons, ih, edit_passes, statuses, List.count_append, Nat.add_assoc]

/-- To a host with this memory, which has seen these statuses, the session answers as a new session
would that parses the text at hand. -/
structure Transparent (s : Session κ) (m : Memory) (seen : List ParseStatus) : Prop where
  tokens_parse : s.parse.1.tokens = fresh m.text
  tokens_parseText : ∀ text, (s.parseText text).1.tokens = fresh text
  status_parse : s.parse.2 = .unchanged ↔ m.parsed = some m.text
  status_parseText : ∀ text, (s.parseText text).2 = .unchanged ↔ m.parsed = some text
  passes : s.passes = seen.count .reparsed
  tokens_setText : ∀ text, (s.setText text).tokens = s.tokens

theorem Recalls.transparent {s : Session κ} {m : Memory} (h : s.Recalls m)
    {seen : List ParseStatus} (hpasses : s.passes = seen.count .reparsed) :
    s.Transparent m seen where
  tokens_parse := by
    rw [fresh_eq, ← h.text]
    exact (parse_current h.current).2
  tokens_parseText text := (parse_current (s := s.setText text) h.current).2
  status_parse := by
    rw [parse_status, h.parsed, h.text]
  status_parseText text := by
    rw [← h.parsed]
    exact parse_status (s.setText text)
  passes := hpasses
  tokens_setText _ := rfl

end Session

inductive Buffer.Event where
  | setText (text : String)
  | reparse
  | setStyles (styles : StyleSheet)
  | highlightBlock (block : String) (start : Nat) (previous : BlockState)
  | highlightLines
  | diagnosticAt (offset : Nat)

inductive Buffer.Reply (κ : Type) where
  | done
  | status (s : ParseStatus)
  | highlights (hs : List BlockHighlight)
  | diagnostic (t : Option (Token κ))

def Buffer.Reply.status? : Reply κ → Option ParseStatus
  | status s => some s
  | _ => none

def Buffer.Event.edit? : Event → Option Session.Edit
  | setText text => some (.setText text)
  | reparse => some .parse
  | _ => none

namespace Buffer

variable [DecidableEq κ] [Language κ]

def handle (b : Buffer κ) : Event → Buffer κ × Reply κ
  | .setText text => (b.setText text, .done)
  | .reparse => (b.reparse.1, .status b.reparse.2)
  | .setStyles styles => (b.setStyles styles, .done)
  | .highlightBlock block start previous =>
    (b, .highlights [b.highlightBlock block start previous])
  | .highlightLines => (b, .highlights b.highlightLines)
  | .diagnosticAt offset => (b, .diagnostic (b.diagnosticAt? offset))

def after (b : Buffer κ) (events : List Event) : Buffer κ :=
  events.foldl (fun b event => (b.handle event).1) b

def statuses : Buffer κ → List Event → List ParseStatus
  | _, [] => []
  | b, event :: events => (b.handle event).2.status?.toList ++ statuses (b.handle event).1 events

theorem handle_session (b : Buffer κ) (event : Event) :
    (b.handle event).1.session = event.edit?.toList.foldl Session.edit b.session := by
  cases event <;> rfl

theorem handle_status (b : Buffer κ) (event : Event) :
    (b.handle event).2.status?.toList = b.session.statuses event.edit?.toList := by
  cases event <;> rfl

/-- A buffer does to its session what its events say, and nothing else. -/
theorem after_session (b : Buffer κ) (events : List Event) :
    (b.after events).session = (events.filterMap Event.edit?).foldl Session.edit b.session := by
  induction events generalizing b with
  | nil => rfl
  | cons event events ih =>
    have hrest := ih (b.handle event).1
    rw [handle_session] at hrest
    cases hedit : event.edit? with
    | none =>
      rw [hedit] at hrest
      rw [List.filterMap_cons_none hedit]
      exact hrest
    | some e =>
      rw [hedit] at hrest
      rw [List.filterMap_cons_some hedit]
      exact hrest

theorem statuses_eq (b : Buffer κ) (events : List Event) :
    b.statuses events = b.session.statuses (events.filterMap Event.edit?) := by
  induction events generalizing b with
  | nil => rfl
  | cons event events ih =>
    rw [statuses, ih, handle_status, handle_session]
    cases hedit : event.edit? with
    | none => rw [List.filterMap_cons_none hedit]; rfl
    | some e => rw [List.filterMap_cons_some hedit]; simp [Session.statuses]

/-- To a host with this memory, which has seen these statuses, the buffer answers as one that parses
the text at hand anew; only a parse changes its tokens. -/
structure Transparent (b : Buffer κ) (m : Session.Memory) (seen : List ParseStatus) : Prop where
  tokens_reparse : b.reparse.1.tokens = Session.fresh m.text
  status_reparse : b.reparse.2 = .unchanged ↔ m.parsed = some m.text
  passes : b.session.passes = seen.count .reparsed
  tokens_handle : ∀ event, event ≠ .reparse → (b.handle event).1.tokens = b.tokens

theorem transparent_of_session {b : Buffer κ} {m : Session.Memory} {seen : List ParseStatus}
    (h : b.session.Transparent m seen) : b.Transparent m seen where
  tokens_reparse := h.tokens_parse
  status_reparse := h.status_parse
  passes := h.passes
  tokens_handle event hevent := by
    cases event with
    | reparse => exact absurd rfl hevent
    | setText text => exact h.tokens_setText text
    | setStyles styles => rfl
    | highlightBlock block start previous => rfl
    | highlightLines => rfl
    | diagnosticAt offset => rfl

end Buffer

/-- After any edits of a session, and after any further events of a buffer that was given the
session, a parse gives the tokens of a new session that parses the text once; it is skipped exactly
where the text parsed last, if any, is the text at hand; the parses not skipped are counted; and
nothing else changes the tokens. -/
theorem parses_transparently [DecidableEq κ] [Language κ] (edits : List Session.Edit)
    (styles : StyleSheet) (events : List Buffer.Event) :
    (Session.after edits : Session κ).Transparent (edits.foldl .note {})
        (({} : Session κ).statuses edits) ∧
      ((Buffer.mk (Session.after edits : Session κ) styles).after events).Transparent
        ((events.filterMap Buffer.Event.edit?).foldl .note (edits.foldl .note {}))
        (({} : Session κ).statuses edits ++
          (Buffer.mk (Session.after edits : Session κ) styles).statuses events) := by
  have hrecalls := Session.recalls_new.edits (κ := κ) edits
  have hpasses := Session.edits_passes ({} : Session κ) edits
  rw [Nat.zero_add] at hpasses
  refine ⟨hrecalls.transparent hpasses, Buffer.transparent_of_session ?_⟩
  rw [Buffer.after_session, Buffer.statuses_eq]
  refine (hrecalls.edits _).transparent ?_
  rw [Session.edits_passes, List.count_append]
  exact congrArg (· + _) hpasses

end GraphScribe
