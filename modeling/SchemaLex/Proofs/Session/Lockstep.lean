-- SUMMARY: Pairs of sessions that answer alike, question after question.
import SchemaLex.Session.Call

/-!
# Sessions in Lockstep

Two sessions answer all questions alike if a relation holds between them that every scan keeps. All
calls are made of scans and of changes to the queue and to the slot, so a relation has to be
followed through those only: that is `Lockstep`, and `Lockstep.Docs` where comments count as well.
-/

namespace SchemaLex

/-- A question to a session: a call, or a look at its line or at the comment in its slot. -/
inductive Query where
  | call (call : Call)
  | line
  | pending
  deriving DecidableEq

/-- The answer to a question. -/
inductive Answer where
  | reply (reply : Except Fault Reply)
  | line (line : Nat)
  | pending (doc : Option Doc)

namespace Session

/-- Answers a question. Only a call changes the session. -/
def ask (s : Session) : Query → Answer × Session
  | .call call =>
    let (reply, s) := s.perform call
    (.reply reply, s)
  | .line => (.line s.line, s)
  | .pending => (.pending s.slot, s)

/-- The answers to a sequence of questions. -/
def replies (s : Session) : List Query → List Answer
  | [] => []
  | query :: queries => (s.ask query).1 :: (s.ask query).2.replies queries

/-- The same answer, and related sessions behind it. -/
inductive Alike {α : Type} (R : Session → Session → Prop) : α × Session → α × Session → Prop where
  | intro (answer : α) {s t : Session} (h : R s t) : Alike R (answer, s) (answer, t)

/-- A relation between sessions of the same queue on the same line that scans keep. -/
structure Lockstep (R : Session → Session → Prop) : Prop where
  queue {s t : Session} : R s t → t.queue = s.queue
  line {s t : Session} : R s t → t.line = s.line
  setQueue {s t : Session} (tokens : List String) :
    R s t → R { s with queue := tokens } { t with queue := tokens }
  scan {s t : Session} : R s t → s.queue = [] → Alike R s.scan t.scan
  abort {s t : Session} (fault : Fault) (event : Event) :
    R s t → Alike R (s.abort fault event : Except Fault Unit × Session) (t.abort fault event)

/-- Such a relation between sessions with the same comment in the slot. -/
structure Lockstep.Docs (R : Session → Session → Prop) : Prop extends Lockstep R where
  slot {s t : Session} : R s t → t.slot = s.slot
  dropSlot {s t : Session} (event : Event) :
    R s t → R { s with slot := none, log := event :: s.log }
      { t with slot := none, log := event :: t.log }

variable {R : Session → Session → Prop} {s t : Session}

theorem Alike.map {α β : Type} (f : α → β) {a b : α × Session} (h : Alike R a b) :
    Alike R (f a.1, a.2) (f b.1, b.2) := by
  cases h with
  | intro answer hrel => exact .intro (f answer) hrel

theorem Alike.and {α : Type} {R : Session → Session → Prop} {P : Session → Prop}
    {a b : α × Session} (h : Alike R a b) (hP : P a.2) : Alike (fun s t => R s t ∧ P s) a b := by
  cases h with
  | intro answer hrel => exact .intro answer ⟨hrel, hP⟩

/-! ## Tokens -/

namespace Lockstep

theorem next (h : Lockstep R) (hst : R s t) : Alike R s.next t.next := by
  unfold Session.next
  rw [h.queue hst]
  cases hqueue : s.queue with
  | nil => exact h.scan hst hqueue
  | cons token rest => exact .intro _ (h.setQueue rest hst)

theorem enqueue (h : Lockstep R) (hst : R s t) (token : String) :
    R (s.enqueue token) (t.enqueue token) := by
  unfold Session.enqueue
  rw [h.queue hst]
  exact h.setQueue _ hst

theorem peek (h : Lockstep R) (hst : R s t) : Alike R s.peek t.peek := by
  unfold Session.peek
  rw [h.queue hst]
  cases hqueue : s.queue with
  | cons token rest => exact .intro _ hst
  | nil =>
    have hscan := h.scan hst hqueue
    generalize s.scan = a at hscan ⊢
    generalize t.scan = b at hscan ⊢
    cases hscan with
    | intro answer hrel =>
      cases answer with
      | error fault => exact .intro _ hrel
      | ok token =>
        cases token with
        | none => exact .intro _ hrel
        | some token =>
          dsimp only
          rw [h.queue hrel]
          exact .intro _ (h.setQueue _ hrel)

theorem accept (h : Lockstep R) (hst : R s t) (wanted : String) :
    Alike R (s.accept wanted) (t.accept wanted) := by
  unfold Session.accept
  have hpeek := h.peek hst
  generalize s.peek = a at hpeek ⊢
  generalize t.peek = b at hpeek ⊢
  cases hpeek with
  | intro answer hrel =>
    cases answer with
    | error fault => exact .intro _ hrel
    | ok actual =>
      dsimp only
      by_cases hactual : actual = some wanted
      · rw [if_pos hactual, if_pos hactual, h.queue hrel]
        exact .intro _ (h.setQueue _ hrel)
      · rw [if_neg hactual, if_neg hactual]
        exact .intro _ hrel

theorem require (h : Lockstep R) (hst : R s t) (wanted : String) :
    Alike R (s.require wanted) (t.require wanted) := by
  unfold Session.require
  have hpeek := h.peek hst
  generalize s.peek = a at hpeek ⊢
  generalize t.peek = b at hpeek ⊢
  cases hpeek with
  | intro answer hrel =>
    cases answer with
    | error fault => exact .intro _ hrel
    | ok actual =>
      dsimp only
      by_cases hactual : actual = some wanted
      · rw [if_pos hactual, if_pos hactual, h.queue hrel]
        exact .intro _ (h.setQueue _ hrel)
      · rw [if_neg hactual, if_neg hactual, h.line hrel]
        exact h.abort _ _ hrel

/-! ## Comments -/

namespace Docs

theorem takeDoc (h : Docs R) (hst : R s t) (rule : Doc → Bool) :
    Alike R (s.takeDoc rule) (t.takeDoc rule) := by
  rw [takeDoc_eq, takeDoc_eq, h.slot hst]
  cases s.slot with
  | none => exact .intro _ hst
  | some doc =>
    dsimp only
    by_cases hrule : doc.hasText && rule doc
    · rw [if_pos hrule, if_pos hrule]
      exact .intro _ (h.dropSlot _ hst)
    · rw [if_neg hrule, if_neg hrule]
      exact .intro _ hst

theorem takeLeading (h : Docs R) (hst : R s t) : Alike R s.takeLeading t.takeLeading := by
  unfold Session.takeLeading
  rw [h.line hst]
  exact h.takeDoc hst _

theorem takeTrailing (h : Docs R) (hst : R s t) (line : Nat) :
    Alike R (s.takeTrailing line) (t.takeTrailing line) := by
  unfold Session.takeTrailing
  rw [h.slot hst]
  by_cases hslot : s.slot.any Doc.hasText
  · rw [if_pos hslot, if_pos hslot]
    exact (h.takeDoc hst (trails line)).map Except.ok
  · rw [if_neg hslot, if_neg hslot]
    have hpeek := h.peek hst
    generalize s.peek = a at hpeek ⊢
    generalize t.peek = b at hpeek ⊢
    cases hpeek with
    | intro answer hrel =>
      cases answer with
      | error fault => exact .intro _ hrel
      | ok token => exact (h.takeDoc hrel (trails line)).map Except.ok

/-! ## Questions -/

theorem perform (h : Docs R) (hst : R s t) (call : Call) :
    Alike R (s.perform call) (t.perform call) := by
  cases call with
  | next => exact (h.next hst).map _
  | peek => exact (h.peek hst).map _
  | enqueue token => exact .intro _ (h.enqueue hst token)
  | accept wanted => exact (h.accept hst wanted).map _
  | require wanted => exact (h.require hst wanted).map _
  | leading => exact (h.takeLeading hst).map fun text => Except.ok (Reply.doc text)
  | trailing line => exact (h.takeTrailing hst line).map _

theorem ask (h : Docs R) (hst : R s t) (query : Query) : Alike R (s.ask query) (t.ask query) := by
  cases query with
  | call call => exact (h.perform hst call).map _
  | line =>
    unfold Session.ask
    rw [h.line hst]
    exact .intro _ hst
  | pending =>
    unfold Session.ask
    rw [h.slot hst]
    exact .intro _ hst

/-- Sessions in lockstep answer all questions alike. -/
theorem replies_eq (h : Docs R) (hst : R s t) (queries : List Query) :
    s.replies queries = t.replies queries := by
  induction queries generalizing s t with
  | nil => rfl
  | cons query queries ih =>
    unfold replies
    have hask := h.ask hst query
    generalize s.ask query = a at hask ⊢
    generalize t.ask query = b at hask ⊢
    cases hask with
    | intro answer hrel => exact congrArg (answer :: ·) (ih hrel)

end Docs

end Lockstep

end Session

end SchemaLex
