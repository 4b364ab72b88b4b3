-- SUMMARY: The answers that lie before a session, and which calls leave them as they are.
import SchemaLex.Proofs.Session.Calls
import SchemaLex.Proofs.Session.Lockstep

/-!
# The Course of a Session

What a session will bring, token after token and with the line behind each, is its course. To look
ahead moves tokens from the text to the queue and leaves the course alone, unless it meets the fault
at the end of the course. So does all that concerns comments only.
-/

namespace SchemaLex.Session

variable {s s' t : Session} {token wanted : String} {fault : Fault}
  {answer : Except Fault (Option String)}

/-- The answers that taking token after token will bring, up to the first that is no token, each
    with the line behind it. -/
def course (s : Session) : List (Except Fault (Option String) × Nat) :=
  s.answers.map fun answered => (answered.1, answered.2.line)

theorem course_of_token (h : s.next = (.ok (some token), s')) :
    s.course = (.ok (some token), s'.line) :: s'.course := by
  rw [course, answers]
  split
  · next heq =>
    obtain ⟨htoken, rfl⟩ := Prod.mk.inj (heq.symm.trans h)
    obtain rfl := Option.some.inj (Except.ok.inj htoken)
    rfl
  · next hne => exact absurd h (hne _ _)

theorem course_of_last (h : s.next = (answer, s')) (hlast : ∀ token, answer ≠ .ok (some token)) :
    s.course = [(answer, s'.line)] := by
  rw [course, answers]
  split
  · next heq => exact absurd (Prod.mk.inj (heq.symm.trans h)).1.symm (hlast _)
  · rw [h]
    rfl

/-! ## The End -/

/-- Nothing waits and nothing is left to read. -/
structure Ended (s : Session) : Prop extends Idle s where
  ahead : s.reader.ahead = []

theorem Ended.scan (h : s.Ended) : s.scan = (.ok none, s) := by
  have hskip := skipGap_of_end h.ahead
  rw [scan_of_idle h.toIdle, scanLexeme_of_end (hskip.symm ▸ h.ahead), hskip]

theorem Ended.next (h : s.Ended) : s.next = (.ok none, s) := by
  rw [Session.next, h.queue]
  exact h.scan

theorem ended_abort {α : Type} (s : Session) (fault : Fault) (event : Event) :
    (abort (α := α) s fault event).2.Ended :=
  ⟨⟨rfl, rfl⟩, s.reader.ahead_toEnd⟩

theorem ended_of_abort {α : Type} {answer : Except Fault α} {event : Event}
    (h : s.abort fault event = (answer, s')) : s'.Ended := by
  have hended := s.ended_abort (α := α) fault event
  rwa [h] at hended

/-- A scan that brings no token ends the session. -/
theorem ended_of_scan (hqueue : s.queue = []) (h : s.scan = (answer, s'))
    (hlast : ∀ token, answer ≠ .ok (some token)) : s'.Ended := by
  unfold scan at h
  split at h
  · unfold scanBody at h
    split at h
    · exact ended_of_abort h
    · exact absurd (Prod.mk.inj h).1.symm (hlast _)
  · next hopened =>
    unfold scanLexeme at h
    dsimp only at h
    split at h
    · next hahead =>
      rw [← (Prod.mk.inj h).2]
      exact ⟨⟨hqueue, hopened⟩, hahead⟩
    · exact ended_of_abort h
    · exact absurd (Prod.mk.inj h).1.symm (hlast _)

theorem ended_of_next (h : s.next = (answer, s')) (hlast : ∀ token, answer ≠ .ok (some token)) :
    s'.Ended := by
  unfold next at h
  split at h
  · exact absurd (Prod.mk.inj h).1.symm (hlast _)
  · next hqueue => exact ended_of_scan hqueue h hlast

/-! ## Looking Ahead -/

/-- A token that lies ahead is found by looking, and is then taken as it would have been. -/
theorem peek_of_next_token (h : s.next = (.ok (some token), s')) :
    ∃ peeked, s.peek = (.ok (some token), peeked) ∧ peeked.next = (.ok (some token), s') ∧
      { peeked with queue := peeked.queue.tail } = s' := by
  unfold next at h
  split at h
  · next first rest hqueue =>
    obtain ⟨htoken, rfl⟩ := Prod.mk.inj h
    obtain rfl := Option.some.inj (Except.ok.inj htoken)
    exact ⟨s, by simp [peek, hqueue], by simp [next, hqueue], by rw [hqueue]; rfl⟩
  · next hqueue => exact ⟨_, peek_of_token hqueue h, rfl, rfl⟩

/-- Where no token lies ahead, to look is to take. -/
theorem peek_of_next_last (h : s.next = (answer, s')) (hlast : ∀ token, answer ≠ .ok (some token)) :
    s.peek = (answer, s') := by
  unfold next at h
  split at h
  · exact absurd (Prod.mk.inj h).1.symm (hlast _)
  · next hqueue =>
    rcases answer with fault | token | token
    · exact peek_of_fault hqueue h
    · exact peek_of_end hqueue h
    · exact absurd rfl (hlast token)

theorem peek_of_next {found : Option String} (h : s.next = (.ok found, s')) :
    ∃ peeked, s.peek = (.ok found, peeked) ∧ peeked.line = s'.line ∧
      (found ≠ none → { peeked with queue := peeked.queue.tail } = s') := by
  cases found with
  | none => exact ⟨s', peek_of_next_last h (by simp), rfl, fun hne => absurd rfl hne⟩
  | some token =>
    obtain ⟨peeked, hpeek, -, htail⟩ := peek_of_next_token h
    have hline : peeked.line = s'.line := (congrArg line htail :)
    exact ⟨peeked, hpeek, hline, fun _ => htail⟩

/-- A look that meets no fault leaves the course as it is. -/
theorem course_of_peek {found : Option String} (h : s.peek = (.ok found, s')) :
    s'.course = s.course := by
  rcases hnext : s.next with ⟨fault | token | token, t⟩
  · cases (peek_of_next_last hnext (by simp)).symm.trans h
  · obtain ⟨-, rfl⟩ := Prod.mk.inj ((peek_of_next_last hnext (by simp)).symm.trans h)
    have hended := ended_of_next hnext (by simp)
    rw [course_of_last hnext (by simp), course_of_last hended.next (by simp)]
  · obtain ⟨peeked, hpeek, hagain, -⟩ := peek_of_next_token hnext
    obtain ⟨-, rfl⟩ := Prod.mk.inj (hpeek.symm.trans h)
    rw [course_of_token hnext, course_of_token hagain]

theorem next_of_peek_fault (h : s.peek = (.error fault, s')) : s.next = (.error fault, s') := by
  obtain ⟨hqueue, hscan⟩ := fault_of_peek h
  rw [next, hqueue]
  exact hscan

/-! ## Comments -/

/-- The sessions differ at most in the slot, in the record and in what counts as documentation. -/
structure SameButDocs (s t : Session) : Prop where
  countLiteralLines : t.options.countLiteralLines = s.options.countLiteralLines
  reader : t.reader = s.reader
  queue : t.queue = s.queue
  opened : t.opened = s.opened

theorem SameButDocs.skipGap (h : s.SameButDocs t) : s.skipGap.SameButDocs t.skipGap := by
  have hitems : t.gapItems = s.gapItems := by rw [gapItems, h.reader, gapItems]
  refine ⟨h.countLiteralLines, ?_, h.queue, h.opened⟩
  change t.gapItems.foldl Reader.pass t.reader.skipMark = _
  rw [hitems, h.reader]
  rfl

theorem SameButDocs.scanBody (h : s.SameButDocs t) (q : Quote) :
    Alike SameButDocs (s.scanBody q) (t.scanBody q) := by
  unfold Session.scanBody
  rw [h.reader, show t.line = s.line from congrArg Reader.line h.reader]
  cases Literal.split? q s.reader.ahead with
  | none => exact .intro _ ⟨h.countLiteralLines, congrArg Reader.toEnd h.reader, rfl, rfl⟩
  | some found =>
    refine .intro _ ⟨h.countLiteralLines, ?_, congrArg (· ++ [q.token]) h.queue, rfl⟩
    rw [h.countLiteralLines]

theorem SameButDocs.scanLexeme (h : s.SameButDocs t) :
    Alike SameButDocs s.scanLexeme t.scanLexeme := by
  have hskip := h.skipGap
  unfold Session.scanLexeme
  dsimp only
  rw [hskip.reader]
  split
  · exact .intro _ hskip
  · exact .intro _ ⟨hskip.countLiteralLines, rfl, rfl, rfl⟩
  · exact .intro _ ⟨hskip.countLiteralLines, rfl, hskip.queue, rfl⟩

theorem lockstep_sameButDocs : Lockstep SameButDocs where
  queue h := h.queue
  line h := congrArg Reader.line h.reader
  setQueue _ h := { h with queue := rfl }
  scan {s t} h _ := by
    unfold Session.scan
    rw [h.opened]
    cases s.opened with
    | none => exact h.scanLexeme
    | some q => exact h.scanBody q
  abort _ _ h := .intro _ ⟨h.countLiteralLines, congrArg Reader.toEnd h.reader, rfl, rfl⟩

/-- Sessions in lockstep have one course. -/
theorem Lockstep.course_eq {R : Session → Session → Prop} (h : Lockstep R) (hst : R s t) :
    s.course = t.course := by
  induction hweight : s.weight using Nat.strongRecOn generalizing s t with
  | ind n ih =>
    rcases hs : s.next with ⟨answer, s'⟩
    have hnext := h.next hst
    rw [hs] at hnext
    generalize ht : t.next = b at hnext
    cases hnext with
    | @intro _ _ t' hrel =>
      rcases answer with fault | token | token
      · rw [course_of_last hs (by simp), course_of_last ht (by simp), h.line hrel]
      · rw [course_of_last hs (by simp), course_of_last ht (by simp), h.line hrel]
      · have hlighter : s'.weight < n := by
          have := weight_next hs
          omega
        rw [course_of_token hs, course_of_token ht, h.line hrel, ih s'.weight hlighter hrel rfl]

theorem course_takeDoc (s : Session) (rule : Doc → Bool) :
    (s.takeDoc rule).2.course = s.course :=
  have hsame : s.SameButDocs (s.takeDoc rule).2 := ⟨rfl, rfl, rfl, rfl⟩
  (lockstep_sameButDocs.course_eq hsame).symm

end SchemaLex.Session
