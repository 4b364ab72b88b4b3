-- SUMMARY: The end of a session is final: what it answers behind a fault or behind its last token.
import SchemaLex.Proofs.Session.LiteralLines
import SchemaLex.Proofs.Session.Taking

/-!
# The End of a Session

A fault closes a session, and so does the end of its text once it has been reached. From there on
every call is answered by its kind alone, as `Call.atEnd` says, until a token is put back. Only a
comment that was captured before the end can still be handed out, and a fault leaves none:
`end_is_final`.
-/

namespace SchemaLex

/-- The answer to a call where nothing is left on `line`, neither a token nor a comment. -/
def Call.atEnd (line : Nat) : Call → Except Fault Reply
  | next => .ok (.token none)
  | peek => .ok (.token none)
  | enqueue _ => .ok .done
  | accept _ => .ok (.matched false)
  | require wanted => .error (.unexpected none wanted line)
  | leading => .ok (.doc none)
  | trailing _ => .ok (.doc none)

namespace Session

/-- The fault has closed the session: nothing waits, nothing is left to read, and the fault is told
    on the line that the session stays on. -/
structure ClosedBy (s : Session) (fault : Fault) : Prop extends Ended s where
  line : fault.line = s.line
  slot : s.slot = none

/-- The second session is the first one some calls later, and has read nothing in between. -/
structure Rested (s s' : Session) : Prop where
  line : s'.line = s.line
  slot : s'.slot = s.slot ∨ s'.slot = none
  captured : s'.log.filter Event.isCaptured = s.log.filter Event.isCaptured

/-- The answer is that of a session at its end. The comment in the slot may still be handed out. -/
def AnswersAtEnd (s : Session) (call : Call) (answer : Except Fault Reply) : Prop :=
  answer = call.atEnd s.line ∨
    call.IsLookup ∧ ∃ doc, s.slot = some doc ∧ answer = .ok (.doc (some doc.text))

/-- As long as no token is put back, the session answers every call as one at its end, rests where
    it is, and has no item left. -/
def IsOver (s : Session) : Prop :=
  s.item.1 = none ∧ ∀ calls : List Call, (∀ call ∈ calls, ∀ token, call ≠ .enqueue token) →
    List.Forall₂ (fun call answered => s.AnswersAtEnd call answered.1 ∧ s.Rested answered.2 ∧
      answered.2.item.1 = none) calls (s.history calls)

variable {s s' t : Session} {call : Call} {calls : List Call} {fault : Fault}

/-! ## Resting -/

theorem Rested.refl (s : Session) : s.Rested s := ⟨rfl, .inl rfl, rfl⟩

theorem Rested.trans (h : s.Rested s') (h' : s'.Rested t) : s.Rested t where
  line := h'.line.trans h.line
  slot := by
    rcases h'.slot with hsame | hnone
    · rw [hsame]
      exact h.slot
    · exact .inr hnone
  captured := h'.captured.trans h.captured

theorem rested_takeDoc (s : Session) (rule : Doc → Bool) : s.Rested (s.takeDoc rule).2 := by
  rcases htake : s.takeDoc rule with ⟨_ | text, left⟩
  · obtain rfl := takeDoc_of_none htake
    exact .refl left
  · have hline : left.line = s.line := by
      have := s.reader_takeDoc rule
      rw [htake] at this
      exact congrArg Reader.line this
    obtain ⟨doc, hslot, -, htext, hrule, hnone⟩ := takeDoc_of_some htake
    refine ⟨hline, .inr hnone, ?_⟩
    simp only [takeDoc_eq, hslot, htext, hrule, Bool.and_self, ↓reduceIte, Prod.mk.injEq] at htake
    rw [← htake.2]
    rfl

/-- A comment is handed out of the slot, or none is. -/
theorem answersAtEnd_takeDoc (s : Session) (rule : Doc → Bool) (hcall : call.IsLookup) :
    s.AnswersAtEnd call (.ok (.doc (s.takeDoc rule).1)) := by
  rcases htake : s.takeDoc rule with ⟨_ | text, left⟩
  · refine .inl ?_
    cases call <;> first | rfl | exact absurd hcall id
  · obtain ⟨doc, hslot, rfl, -⟩ := takeDoc_of_some htake
    exact .inr ⟨hcall, doc, hslot, rfl⟩

/-! ## One Call -/

theorem Ended.peek (h : s.Ended) : s.peek = (.ok none, s) := peek_of_next_last h.next (by simp)

theorem Ended.item (h : s.Ended) : s.item = (none, s) := by rw [Session.item, h.next]

/-- Nothing but a token that is put back leads away from the end. -/
theorem Ended.perform (h : s.Ended) (hcall : ∀ token, call ≠ .enqueue token) :
    (s.perform call).2.Ended ∧ s.AnswersAtEnd call (s.perform call).1 ∧
      s.Rested (s.perform call).2 := by
  cases call with
  | next =>
    rw [Session.perform, h.next]
    exact ⟨h, .inl rfl, .refl s⟩
  | peek =>
    rw [Session.perform, h.peek]
    exact ⟨h, .inl rfl, .refl s⟩
  | enqueue token => exact absurd rfl (hcall token)
  | accept wanted =>
    rw [Session.perform, accept, h.peek]
    exact ⟨h, .inl rfl, .refl s⟩
  | require wanted =>
    rw [Session.perform, require, h.peek]
    exact ⟨s.ended_abort (α := Unit) (.unexpected none wanted s.line) _, .inl rfl,
      ⟨rfl, .inr rfl, rfl⟩⟩
  | leading => exact ⟨h.takeDoc _, s.answersAtEnd_takeDoc _ trivial, s.rested_takeDoc _⟩
  | trailing line =>
    have htrailing : s.takeTrailing line =
        (.ok (s.takeDoc (trails line)).1, (s.takeDoc (trails line)).2) := by
      by_cases hslot : s.slot.any Doc.hasText
      · rw [takeTrailing, if_pos hslot]
      · rw [takeTrailing, if_neg hslot, h.peek]
    rw [Session.perform, htrailing]
    exact ⟨h.takeDoc _, s.answersAtEnd_takeDoc _ trivial, s.rested_takeDoc _⟩

/-! ## Runs -/

theorem AnswersAtEnd.of_rested {answer : Except Fault Reply} (hrested : s.Rested s')
    (h : s'.AnswersAtEnd call answer) : s.AnswersAtEnd call answer := by
  rcases h with hanswer | ⟨hcall, doc, hslot, hanswer⟩
  · exact .inl (by rw [hanswer, hrested.line])
  · rcases hrested.slot with hsame | hnone
    · exact .inr ⟨hcall, doc, hsame.symm.trans hslot, hanswer⟩
    · cases hnone.symm.trans hslot

/-- What holds of one call at the end holds of all calls behind it. -/
theorem Ended.isOver (h : s.Ended) : s.IsOver := by
  refine ⟨by rw [h.item], fun calls hcalls => ?_⟩
  -- The induction moves on to the session behind each call, which rests on the first one.
  suffices ∀ t : Session, s.Rested t → t.Ended →
      List.Forall₂ (fun call answered => s.AnswersAtEnd call answered.1 ∧ s.Rested answered.2 ∧
        answered.2.item.1 = none) calls (t.history calls) from this s (.refl s) h
  induction calls with
  | nil => exact fun t hrested hended => .nil
  | cons call calls ih =>
    intro t hrested hended
    obtain ⟨hcall, hlater⟩ := List.forall_mem_cons.mp hcalls
    obtain ⟨hended', hanswer, hrested'⟩ := hended.perform hcall
    have hhere := hrested.trans hrested'
    exact .cons ⟨hanswer.of_rested hrested, hhere, by rw [hended'.item]⟩
      (ih hlater _ hhere hended')

/-! ## Faults -/

theorem closedBy_abort {α : Type} (s : Session) {fault : Fault} (event : Event)
    (h : fault.line = s.line) : (abort (α := α) s fault event).2.ClosedBy fault :=
  ⟨s.ended_abort fault event, h, rfl⟩

theorem closedBy_of_scan (h : s.scan = (.error fault, s')) : s'.ClosedBy fault := by
  unfold scan at h
  split at h
  · unfold scanBody at h
    split at h
    · obtain ⟨hfault, rfl⟩ := Prod.mk.inj h
      obtain rfl := Except.error.inj hfault
      exact s.closedBy_abort (α := Unit) _ rfl
    · cases h
  · unfold scanLexeme at h
    dsimp only at h
    split at h
    · cases h
    · obtain ⟨hfault, rfl⟩ := Prod.mk.inj h
      obtain rfl := Except.error.inj hfault
      exact s.passOpenComment.closedBy_abort (α := Unit) _ rfl
    · cases h

/-- A fault closes the session, whichever call met it. -/
theorem closedBy_of_perform (h : s.perform call = (.error fault, s')) : s'.ClosedBy fault := by
  rcases fault_of_perform h with ⟨-, hscan⟩ | ⟨wanted, -, hrefuses⟩
  · exact closedBy_of_scan hscan
  · obtain ⟨actual, peeked, -, -, rfl, rfl⟩ := hrefuses.refused
    exact peeked.closedBy_abort (α := Unit) _ rfl

theorem perform_next_of_item (h : s.item = (some (.error fault), s')) :
    s.perform .next = (.error fault, s') := by
  unfold item at h
  rw [perform]
  split at h
  · cases h
  · cases h
  · next hnext =>
    rw [hnext]
    obtain ⟨hfault, rfl⟩ := Prod.mk.inj h
    rw [Except.error.inj (Option.some.inj hfault)]
    rfl

/-- Behind a fault all calls are answered by their kind, lookups included. -/
theorem ClosedBy.run (h : s.ClosedBy fault)
    (hcalls : ∀ call ∈ calls, ∀ token, call ≠ .enqueue token) :
    (s.run calls).1 = calls.map (Call.atEnd fault.line) := by
  induction calls generalizing s with
  | nil => rfl
  | cons call calls ih =>
    obtain ⟨hcall, hlater⟩ := List.forall_mem_cons.mp hcalls
    obtain ⟨hended, hanswer, hrested⟩ := h.toEnded.perform hcall
    have hslot : (s.perform call).2.slot = none := hrested.slot.elim (·.trans h.slot) id
    rcases hanswer with hanswer | ⟨-, doc, hdoc, -⟩
    · have hclosed : (s.perform call).2.ClosedBy fault :=
        ⟨hended, h.line.trans hrested.line.symm, hslot⟩
      rw [Session.run, List.map_cons, ih hclosed hlater, hanswer, h.line]
    · cases h.slot.symm.trans hdoc

/-! ## Every Session -/

theorem next_of_peek_end (h : s.peek = (.ok none, s')) : s.next = (.ok none, s') := by
  rcases hnext : s.next with ⟨fault | token | token, t⟩
  · cases (peek_of_next_last hnext (by simp)).symm.trans h
  · rw [← h, peek_of_next_last hnext (by simp)]
  · obtain ⟨peeked, hpeek, -⟩ := peek_of_next_token hnext
    cases hpeek.symm.trans h

/-- A fault closes the session that meets it, and a session without a token ahead is over, whatever
    calls have led to it. Behind a fault not even a comment is left. -/
theorem end_is_final (s : Session) :
    (∀ fault s', (∃ call, s.perform call = (.error fault, s')) ∨
        s.item = (some (.error fault), s') →
      s'.ClosedBy fault ∧ s'.IsOver ∧
        ∀ calls : List Call, (∀ call ∈ calls, ∀ token, call ≠ .enqueue token) →
          (s'.run calls).1 = calls.map (Call.atEnd fault.line)) ∧
      ∀ s', s.next = (.ok none, s') ∨ s.peek = (.ok none, s') → s'.IsOver := by
  constructor
  · intro fault s' hfault
    have hclosed : s'.ClosedBy fault := by
      rcases hfault with ⟨call, hperform⟩ | hitem
      · exact closedBy_of_perform hperform
      · exact closedBy_of_perform (perform_next_of_item hitem)
    exact ⟨hclosed, hclosed.toEnded.isOver, fun calls hcalls => hclosed.run hcalls⟩
  · intro s' hend
    have hnext : s.next = (.ok none, s') := hend.elim id next_of_peek_end
    exact (ended_of_next hnext (by simp)).isOver

end Session

end SchemaLex
