-- SUMMARY: What any run of calls leaves, with faults on the way or without.
import SchemaLex.Proofs.Session.Course
import SchemaLex.Proofs.Session.Slot

/-!
# Reached Sessions

A run of calls leaves a session at a place of its text, with a slot that is told by what it has
read, or it leaves the session silent: a fault has come, and only tokens that the caller puts back
can come behind it.
-/

namespace SchemaLex.Session

variable {s s' looked : Session} {options : Options} {text : String} {layout : Layout}
  {read : List Part} {place : Place} {call : Call} {reply : Reply} {fault : Fault}
  {new : List String}

/-! ## Silence -/

/-- Nothing is left to read, no literal is open and no comment waits. -/
structure Silent (s : Session) : Prop where
  ahead : s.reader.ahead = []
  opened : s.opened = none
  slot : s.slot = none

theorem exists_abort_of_scan (h : s.scan = (.error fault, s')) :
    ∃ (t : Session) (event : Event),
      s' = (t.abort fault event : Except Fault Unit × Session).2 := by
  unfold scan at h
  split at h
  · unfold scanBody at h
    split at h
    · obtain ⟨hfault, rfl⟩ := Prod.mk.inj h
      obtain rfl := Except.error.inj hfault
      exact ⟨s, _, rfl⟩
    · cases h
  · unfold scanLexeme at h
    dsimp only at h
    split at h
    · cases h
    · obtain ⟨hfault, rfl⟩ := Prod.mk.inj h
      obtain rfl := Except.error.inj hfault
      exact ⟨s.passOpenComment, _, rfl⟩
    · cases h

/-- A fault comes with the end of the session. -/
theorem exists_abort_of_fault (h : s.perform call = (.error fault, s')) :
    ∃ (t : Session) (event : Event),
      s' = (t.abort fault event : Except Fault Unit × Session).2 := by
  rcases fault_of_perform h with ⟨-, hscan⟩ | ⟨wanted, -, hrefuses⟩
  · exact exists_abort_of_scan hscan
  · obtain ⟨actual, peeked, -, -, -, rfl⟩ := hrefuses.refused
    exact ⟨peeked, _, rfl⟩

theorem silent_of_fault (h : s.perform call = (.error fault, s')) : s'.Silent := by
  obtain ⟨t, event, rfl⟩ := exists_abort_of_fault h
  exact ⟨t.reader.ahead_toEnd, rfl, rfl⟩

theorem Silent.ended (h : s.Silent) (hqueue : s.queue = []) : s.Ended :=
  ⟨⟨hqueue, h.opened⟩, h.ahead⟩

/-- Looking finds nothing more to scan. -/
theorem Silent.eq_of_looks (h : s.Silent) (hlooks : s.Looks new looked) :
    looked = s ∧ new = [] := by
  cases hlooks with
  | stay => exact ⟨rfl, rfl⟩
  | scan hqueue hscan =>
    obtain ⟨htoken, rfl⟩ := Prod.mk.inj (hscan.symm.trans (h.ended hqueue).scan)
    rw [Except.ok.inj htoken, hqueue]
    exact ⟨rfl, rfl⟩

/-- A silent session hands out no comment and stays silent. -/
theorem Silent.of_perform (h : s.Silent) (hperform : s.perform call = (.ok reply, s')) :
    s'.Silent ∧ ∀ found, reply ≠ .doc (some found) := by
  obtain ⟨new, looked, hperforms⟩ := performs_of_perform hperform
  obtain ⟨rfl, -⟩ := h.eq_of_looks hperforms.looks
  rcases hperforms.slot with ⟨doc, -, hdoc, -⟩ | ⟨hreply, hslot⟩
  · cases h.slot.symm.trans hdoc
  · exact ⟨⟨(congrArg Reader.ahead hperforms.reader).trans h.ahead,
      hperforms.opened.trans h.opened, hslot.trans h.slot⟩, hreply⟩

theorem Silent.perform (h : s.Silent) (call : Call) : (s.perform call).2.Silent := by
  rcases hperform : s.perform call with ⟨fault | reply, s'⟩
  · exact silent_of_fault hperform
  · exact (h.of_perform hperform).1

theorem Silent.run (h : s.Silent) (calls : List Call) : (s.run calls).2.Silent := by
  induction calls generalizing s with
  | nil => exact h
  | cons call calls ih => exact ih (h.perform call)

/-! ## Places -/

/-- The session stands at a place of its text, and what it read and handed out tells its slot. -/
structure Follows (s : Session) (options : Options) (text : String) (layout : Layout)
    (read : List Part) (place : Place) : Prop where
  hasRead : s.HasRead options text layout read place
  holds : ∃ returned, s.SlotHolds options read place returned

theorem follows_ofString (options : Options) {text : String} {layout : Layout}
    (h : layout.Divides (Text.dropMark text.toList)) :
    (ofString options text).Follows options text layout []
      (.between (text.toList.head? == some '\uFEFF') layout) :=
  ⟨hasRead_ofString options h, _, slotHolds_ofString options text _⟩

theorem Follows.of_perform (h : s.Follows options text layout read place)
    (hperform : s.perform call = (.ok reply, s')) :
    ∃ crossed place', s'.Follows options text layout (read ++ crossed) place' := by
  obtain ⟨returned, hholds⟩ := h.holds
  obtain ⟨crossed, place', hread', hholds', -⟩ := hholds.of_perform h.hasRead hperform
  exact ⟨crossed, place', hread', _, hholds'⟩

theorem Follows.takeDoc (h : s.Follows options text layout read place) (rule : Doc → Bool) :
    (s.takeDoc rule).2.Follows options text layout read place := by
  obtain ⟨hread, returned, hholds⟩ := h
  refine ⟨hread.congr (s.options_takeDoc rule) (s.reader_takeDoc rule) (s.opened_takeDoc rule), ?_⟩
  rcases htake : s.takeDoc rule with ⟨_ | found, s'⟩
  · obtain rfl := takeDoc_of_none htake
    exact ⟨returned, hholds⟩
  · obtain ⟨doc, hslot, -, -, -, hnone⟩ := takeDoc_of_some htake
    obtain ⟨upTo, hlatest, -⟩ := hholds.of_slot hslot
    exact ⟨_, hholds.of_handedOut hlatest hnone⟩

/-- Every run leaves a session at a place of its text, or silent. -/
theorem Follows.run (h : s.Follows options text layout read place) (calls : List Call) :
    (∃ read' place', (s.run calls).2.Follows options text layout read' place') ∨
      (s.run calls).2.Silent := by
  induction calls generalizing s read place with
  | nil => exact .inl ⟨read, place, h⟩
  | cons call calls ih =>
    rw [Session.run]
    rcases hperform : s.perform call with ⟨fault | reply, s'⟩
    · exact .inr ((silent_of_fault hperform).run calls)
    · obtain ⟨crossed, place', h'⟩ := h.of_perform hperform
      exact ih h'

end SchemaLex.Session
