-- SUMMARY: What a call can do to a session: at most one scan, then a change of queue or slot.
import SchemaLex.Proofs.Session.Scanning
import SchemaLex.Session.Call

/-!
# Calls

Every call that brings no fault is of one form: it may scan once, if the queue is empty, then takes
a token from the front of the queue or puts one at its back, and may take the comment from the slot.
`performs_of_perform` says so for all calls at once. A fault comes from the scan or from a token
that a caller required in vain.
-/

namespace SchemaLex

/-- The token that a call takes, as its reply tells. -/
def Call.taken : Call → Reply → Option String
  | next, .token token => token
  | accept wanted, .matched true => some wanted
  | require wanted, .matched true => some wanted
  | _, _ => none

/-- The token that a call puts back. -/
def Call.added : Call → Option String
  | enqueue token => some token
  | _ => none

/-- What a session records of a reply: a comment that it brings. -/
def Reply.events : Reply → List Event
  | doc (some text) => [.attributed text]
  | _ => []

theorem Reply.events_eq_nil {reply : Reply} (h : ∀ text, reply ≠ .doc (some text)) :
    reply.events = [] := by
  cases reply with
  | doc text =>
    cases text with
    | none => rfl
    | some text => exact absurd rfl (h text)
  | _ => rfl

namespace Session

/-- The session scans once, for want of a waiting token, or not at all. `new` are the tokens that
    this brings, the last of them the quote that closes a literal. -/
inductive Looks (s : Session) : List String → Session → Prop where
  | stay : s.Looks [] s
  | scan {token : Option String} {looked : Session} (hqueue : s.queue = [])
    (hscan : s.scan = (.ok token, looked)) : s.Looks (token.toList ++ looked.queue) looked

/-- What is left of a session that looked, behind the call that made it look. -/
structure Performs (s : Session) (call : Call) (reply : Reply) (new : List String)
    (looked s' : Session) : Prop where
  looks : s.Looks new looked
  options : s'.options = looked.options
  reader : s'.reader = looked.reader
  opened : s'.opened = looked.opened
  /-- Tokens are taken from the front and put back behind those that wait. -/
  queue : (call.taken reply).toList ++ s'.queue = s.queue ++ call.added.toList ++ new
  /-- Only a reply with a comment empties the slot, and the comment is the one that was there. -/
  slot : (∃ doc, reply = .doc (some doc.text) ∧ looked.slot = some doc ∧ s'.slot = none) ∨
    (∀ text, reply ≠ .doc (some text)) ∧ s'.slot = looked.slot
  log : s'.log = reply.events ++ looked.log

variable {s s' : Session} {call : Call} {reply : Reply} {fault : Fault}

/-- A scan that comes to the end of the text leaves the queue alone. -/
theorem queue_of_scan_end (h : s.scan = (.ok none, s')) : s'.queue = s.queue := by
  unfold scan at h
  split at h
  · unfold scanBody at h
    split at h <;> cases h
  · unfold scanLexeme at h
    dsimp only at h
    split at h
    · rw [← (Prod.mk.inj h).2, queue_skipGap]
    · cases h
    · cases h

/-! ## Looking -/

theorem looks_of_peek {token : Option String} (h : s.peek = (.ok token, s')) :
    ∃ new looked, s.Looks new looked ∧ s' = { looked with queue := s.queue ++ new } ∧
      token = s'.queue.head? := by
  unfold peek at h
  split at h
  · next first rest hqueue =>
    obtain ⟨htoken, rfl⟩ := Prod.mk.inj h
    exact ⟨[], s, .stay, by rw [List.append_nil], by rw [hqueue, ← Except.ok.inj htoken]; rfl⟩
  · next hqueue =>
    split at h
    · next first looked hscan =>
      obtain ⟨htoken, rfl⟩ := Prod.mk.inj h
      refine ⟨_, looked, .scan hqueue hscan, ?_, (Except.ok.inj htoken).symm⟩
      rw [hqueue]
      rfl
    · next looked hscan =>
      obtain ⟨htoken, rfl⟩ := Prod.mk.inj h
      refine ⟨_, looked, .scan hqueue hscan, ?_, ?_⟩
      · rw [hqueue]
        rfl
      · rw [queue_of_scan_end hscan, hqueue, ← Except.ok.inj htoken]
        rfl
    · cases h

theorem fault_of_peek (h : s.peek = (.error fault, s')) :
    s.queue = [] ∧ s.scan = (.error fault, s') := by
  unfold peek at h
  split at h
  · cases h
  · next hqueue =>
    split at h
    · cases h
    · cases h
    · next hscan =>
      refine ⟨hqueue, ?_⟩
      rw [hscan]
      exact h

theorem fault_of_next (h : s.next = (.error fault, s')) :
    s.queue = [] ∧ s.scan = (.error fault, s') := by
  unfold next at h
  split at h
  · cases h
  · next hqueue => exact ⟨hqueue, h⟩

theorem scan_of_next_end (h : s.next = (.ok none, s')) :
    s.queue = [] ∧ s.scan = (.ok none, s') := by
  unfold next at h
  split at h
  · cases (Prod.mk.inj h).1
  · next hqueue => exact ⟨hqueue, h⟩

/-! ## Calls without a Fault -/

theorem performs_next {token : Option String} (h : s.next = (.ok token, s')) :
    ∃ new looked, s.Performs .next (.token token) new looked s' := by
  unfold next at h
  split at h
  · next first rest hqueue =>
    obtain ⟨htoken, rfl⟩ := Prod.mk.inj h
    obtain rfl := Except.ok.inj htoken
    exact ⟨[], s, .stay, rfl, rfl, rfl, by simp [Call.taken, Call.added, hqueue],
      .inr ⟨by simp, rfl⟩, rfl⟩
  · next hqueue =>
    exact ⟨_, s', .scan hqueue h, rfl, rfl, rfl, by simp [Call.taken, Call.added, hqueue],
      .inr ⟨by simp, rfl⟩, rfl⟩

/-- Looking takes nothing, whatever the caller then replies. -/
theorem performs_of_peek {token : Option String} (hpeek : s.peek = (.ok token, s'))
    (htaken : call.taken reply = none) (hadded : call.added = none)
    (hreply : ∀ text, reply ≠ .doc (some text)) :
    ∃ new looked, s.Performs call reply new looked s' := by
  obtain ⟨new, looked, hlooks, rfl, -⟩ := looks_of_peek hpeek
  exact ⟨new, looked, hlooks, rfl, rfl, rfl, by simp [htaken, hadded], .inr ⟨hreply, rfl⟩,
    by rw [Reply.events_eq_nil hreply]; rfl⟩

/-- A token that was looked for and came is taken from the front. -/
theorem performs_of_match {wanted : String} (hpeek : s.peek = (.ok (some wanted), s'))
    (htaken : call.taken reply = some wanted) (hadded : call.added = none)
    (hreply : ∀ text, reply ≠ .doc (some text)) :
    ∃ new looked, s.Performs call reply new looked { s' with queue := s'.queue.tail } := by
  obtain ⟨new, looked, hlooks, rfl, hhead⟩ := looks_of_peek hpeek
  refine ⟨new, looked, hlooks, rfl, rfl, rfl, ?_, .inr ⟨hreply, rfl⟩,
    by rw [Reply.events_eq_nil hreply]; rfl⟩
  obtain ⟨rest, hqueue⟩ := List.head?_eq_some_iff.mp hhead.symm
  simp only [htaken, hadded, Option.toList_some, Option.toList_none, List.append_nil] at hqueue ⊢
  simp [hqueue]

theorem log_takeDoc (s : Session) (rule : Doc → Bool) :
    (s.takeDoc rule).2.log = (Reply.doc (s.takeDoc rule).1).events ++ s.log := by
  rw [takeDoc_eq]
  split
  · split <;> rfl
  · rfl

/-- A comment is handed out of the slot that looking left. -/
theorem performs_of_takeDoc {rule : Doc → Bool} {new : List String} {looked peeked : Session}
    (htaken : ∀ text, call.taken (.doc text) = none) (hadded : call.added = none)
    (hlooks : s.Looks new looked) (hpeeked : peeked = { looked with queue := s.queue ++ new }) :
    s.Performs call (.doc (peeked.takeDoc rule).1) new looked (peeked.takeDoc rule).2 := by
  have hreader : peeked.reader = looked.reader := by rw [hpeeked]
  have hopened : peeked.opened = looked.opened := by rw [hpeeked]
  have hslot : peeked.slot = looked.slot := by rw [hpeeked]
  have hqueue : peeked.queue = s.queue ++ new := by rw [hpeeked]
  have hoptions : (peeked.takeDoc rule).2.options = looked.options := by
    rw [options_takeDoc, hpeeked]
  refine ⟨hlooks, hoptions, by rw [reader_takeDoc, hreader], by rw [opened_takeDoc, hopened],
    by rw [htaken, hadded, queue_takeDoc, hqueue]; simp, ?_, by rw [log_takeDoc, hpeeked]⟩
  cases htake : peeked.takeDoc rule with
  | mk text left =>
    cases text with
    | some text =>
      obtain ⟨doc, hdoc, rfl, -, -, hnone⟩ := takeDoc_of_some htake
      exact .inl ⟨doc, rfl, hslot ▸ hdoc, hnone⟩
    | none =>
      obtain rfl := takeDoc_of_none htake
      exact .inr ⟨by simp, hslot⟩

theorem performs_accept {wanted : String} {came : Bool} (h : s.accept wanted = (.ok came, s')) :
    ∃ new looked, s.Performs (.accept wanted) (.matched came) new looked s' := by
  unfold accept at h
  split at h
  · next actual peeked hpeek =>
    split at h
    · next hactual =>
      obtain ⟨hcame, rfl⟩ := Prod.mk.inj h
      rw [hactual] at hpeek
      rw [← Except.ok.inj hcame]
      exact performs_of_match hpeek rfl rfl (by simp)
    · obtain ⟨hcame, rfl⟩ := Prod.mk.inj h
      rw [← Except.ok.inj hcame]
      exact performs_of_peek hpeek rfl rfl (by simp)
  · cases h

theorem performs_require {wanted : String} (h : s.require wanted = (.ok (), s')) :
    ∃ new looked, s.Performs (.require wanted) (.matched true) new looked s' := by
  unfold require at h
  split at h
  · next actual peeked hpeek =>
    split at h
    · next hactual =>
      obtain ⟨-, rfl⟩ := Prod.mk.inj h
      rw [hactual] at hpeek
      exact performs_of_match hpeek rfl rfl (by simp)
    · cases h
  · cases h

theorem performs_takeTrailing {line : Nat} {text : Option String}
    (h : s.takeTrailing line = (.ok text, s')) :
    ∃ new looked, s.Performs (.trailing line) (.doc text) new looked s' := by
  unfold takeTrailing at h
  split at h
  · obtain ⟨htext, rfl⟩ := Prod.mk.inj h
    rw [← Except.ok.inj htext]
    exact ⟨[], s, performs_of_takeDoc (fun _ => rfl) rfl .stay (by rw [List.append_nil])⟩
  · split at h
    · next token peeked hpeek =>
      obtain ⟨new, looked, hlooks, hpeeked, -⟩ := looks_of_peek hpeek
      obtain ⟨htext, rfl⟩ := Prod.mk.inj h
      rw [← Except.ok.inj htext]
      exact ⟨new, looked, performs_of_takeDoc (fun _ => rfl) rfl hlooks hpeeked⟩
    · cases h

/-- The reply of a call is made from the answer of an operation. -/
theorem exists_of_map_eq_ok {α β : Type} {f : α → β} {answered : Except Fault α × Session} {b : β}
    (h : (answered.1.map f, answered.2) = (.ok b, s')) : ∃ a, answered = (.ok a, s') ∧ f a = b := by
  obtain ⟨answer, left⟩ := answered
  obtain ⟨hanswer, rfl⟩ := Prod.mk.inj h
  cases answer with
  | error fault => cases hanswer
  | ok a => exact ⟨a, rfl, Except.ok.inj hanswer⟩

/-- What a call that brings no fault has done. -/
theorem performs_of_perform (h : s.perform call = (.ok reply, s')) :
    ∃ new looked, s.Performs call reply new looked s' := by
  cases call with
  | next =>
    obtain ⟨token, hnext, rfl⟩ := exists_of_map_eq_ok h
    exact performs_next hnext
  | peek =>
    obtain ⟨token, hpeek, rfl⟩ := exists_of_map_eq_ok h
    exact performs_of_peek hpeek rfl rfl (by simp)
  | enqueue token =>
    obtain ⟨hreply, rfl⟩ := Prod.mk.inj h
    obtain rfl := Except.ok.inj hreply
    exact ⟨[], s, .stay, rfl, rfl, rfl, by simp [Call.taken, Call.added, Session.enqueue],
      .inr ⟨by simp, rfl⟩, rfl⟩
  | accept wanted =>
    obtain ⟨came, haccept, rfl⟩ := exists_of_map_eq_ok h
    exact performs_accept haccept
  | require wanted =>
    obtain ⟨⟨⟩, hrequire, rfl⟩ := exists_of_map_eq_ok h
    exact performs_require hrequire
  | leading =>
    obtain ⟨hreply, rfl⟩ := Prod.mk.inj h
    obtain rfl := Except.ok.inj hreply
    exact ⟨[], s, performs_of_takeDoc (fun _ => rfl) rfl .stay (by rw [List.append_nil])⟩
  | trailing line =>
    obtain ⟨text, htrailing, rfl⟩ := exists_of_map_eq_ok h
    exact performs_takeTrailing htrailing

/-! ## Calls with a Fault -/

theorem exists_of_map_eq_error {α β : Type} {f : α → β} {answered : Except Fault α × Session}
    (h : (answered.1.map f, answered.2) = (.error fault, s')) : answered = (.error fault, s') := by
  obtain ⟨answer, left⟩ := answered
  obtain ⟨hanswer, rfl⟩ := Prod.mk.inj h
  cases answer with
  | error found => rw [Except.error.inj hanswer]
  | ok a => cases hanswer

/-- A caller required a token, and another one came or the end of the text. -/
structure Refuses (s : Session) (wanted : String) (fault : Fault) (s' : Session) : Prop where
  refused : ∃ actual peeked, s.peek = (.ok actual, peeked) ∧ actual ≠ some wanted ∧
    fault = .unexpected actual wanted peeked.line ∧
    s' = (peeked.abort fault (.refused fault) : Except Fault Unit × Session).2

/-- A fault comes from a scan, or from a required token that did not come. -/
theorem fault_of_perform (h : s.perform call = (.error fault, s')) :
    (s.queue = [] ∧ s.scan = (.error fault, s')) ∨
      ∃ wanted, call = .require wanted ∧ s.Refuses wanted fault s' := by
  cases call with
  | next => exact .inl (fault_of_next (exists_of_map_eq_error h))
  | peek => exact .inl (fault_of_peek (exists_of_map_eq_error h))
  | enqueue token => cases h
  | accept wanted =>
    have haccept : s.accept wanted = (.error fault, s') := exists_of_map_eq_error h
    unfold accept at haccept
    split at haccept
    · split at haccept <;> cases haccept
    · next hpeek =>
      obtain ⟨hfault, rfl⟩ := Prod.mk.inj haccept
      obtain rfl := Except.error.inj hfault
      exact .inl (fault_of_peek hpeek)
  | require wanted =>
    have hrequire : s.require wanted = (.error fault, s') := exists_of_map_eq_error h
    unfold require at hrequire
    split at hrequire
    · next actual peeked hpeek =>
      split at hrequire
      · cases hrequire
      · next hactual =>
        obtain ⟨hfault, rfl⟩ := Prod.mk.inj hrequire
        obtain rfl := Except.error.inj hfault
        exact .inr ⟨wanted, rfl, actual, peeked, hpeek, hactual, rfl, rfl⟩
    · next hpeek =>
      obtain ⟨hfault, rfl⟩ := Prod.mk.inj hrequire
      obtain rfl := Except.error.inj hfault
      exact .inl (fault_of_peek hpeek)
  | leading => cases h
  | trailing line =>
    have htrailing : s.takeTrailing line = (.error fault, s') := exists_of_map_eq_error h
    unfold takeTrailing at htrailing
    by_cases hslot : s.slot.any Doc.hasText
    · rw [if_pos hslot] at htrailing
      cases (Prod.mk.inj htrailing).1
    · rw [if_neg hslot] at htrailing
      split at htrailing
      · cases (Prod.mk.inj htrailing).1
      · next hpeek =>
        obtain ⟨hfault, rfl⟩ := Prod.mk.inj htrailing
        obtain rfl := Except.error.inj hfault
        exact .inl (fault_of_peek hpeek)

/-! ## Options -/

theorem options_scan (s : Session) : s.scan.2.options = s.options := by
  unfold scan
  split
  · unfold scanBody
    split <;> rfl
  · unfold scanLexeme
    dsimp only
    split <;> rfl

theorem options_of_looks {new : List String} {looked : Session} (h : s.Looks new looked) :
    looked.options = s.options := by
  cases h with
  | stay => rfl
  | scan hqueue hscan =>
    have := s.options_scan
    rwa [hscan] at this

/-- No call changes what the caller asked for at the start. -/
theorem options_perform (s : Session) (call : Call) :
    (s.perform call).2.options = s.options := by
  rcases hperform : s.perform call with ⟨fault | reply, s'⟩
  · rcases fault_of_perform hperform with ⟨-, hscan⟩ | ⟨wanted, -, hrefuses⟩
    · have := s.options_scan
      rwa [hscan] at this
    · obtain ⟨actual, peeked, hpeek, -, -, rfl⟩ := hrefuses.refused
      obtain ⟨new, looked, hlooks, rfl, -⟩ := looks_of_peek hpeek
      exact (options_of_looks hlooks :)
  · obtain ⟨new, looked, hperforms⟩ := performs_of_perform hperform
    exact hperforms.options.trans (options_of_looks hperforms.looks)

end Session

end SchemaLex
