-- SUMMARY: Calls that take a token and calls that only look, told by the course of a session.
import SchemaLex.Proofs.Session.Course

/-!
# Taking and Looking

A call that takes answers by the token that lies ahead and leaves the session that `next` would have
left. A question that only looks leaves the course of the session as it is. Behind its end a session
answers no question with a token.
-/

namespace SchemaLex

/-- The call takes the next token, if it is the wanted one where one is wanted. -/
def Call.IsTaking : Call → Prop
  | next => True
  | accept _ => True
  | require _ => True
  | _ => False

/-- The call took the next token, or asked for any and found none. -/
def Call.Took : Call → Reply → Prop
  | next, .token _ => True
  | accept _, .matched came => came
  | require _, .matched came => came
  | _, _ => False

theorem Call.isTaking_of_took {call : Call} {reply : Reply} (h : call.Took reply) :
    call.IsTaking := by
  cases call with
  | next => trivial
  | accept wanted => trivial
  | require wanted => trivial
  | _ => cases reply <;> cases h

/-- The answer to a call that takes, told by the answer that lies ahead and the line behind it. -/
def Call.answerTo : Call → Except Fault (Option String) → Nat → Except Fault Reply
  | next, ahead, _ => ahead.map .token
  | accept wanted, ahead, _ => ahead.map fun found => .matched (found = some wanted)
  | require wanted, .ok found, line =>
    if found = some wanted then .ok (.matched true) else .error (.unexpected found wanted line)
  | _, .error fault, _ => .error fault
  | _, _, _ => .ok .done

/-- The token that a question took, as its answer tells. -/
def Answer.taken (query : Query) (answer : Answer) : Option String :=
  match query, answer with
  | .call call, .reply (.ok brought) => call.taken brought
  | _, _ => none

/-- The fault that an answer tells. -/
def Answer.fault? : Answer → Option Fault
  | reply (.error fault) => some fault
  | _ => none

namespace Session

/-- The question takes no token from the session. A token may be asked for if another one comes. -/
def OnlyLooks (s : Session) : Query → Prop
  | .call .peek => True
  | .call (.accept wanted) => (s.perform (.accept wanted)).1 ≠ .ok (.matched true)
  | .call .leading => True
  | .call (.trailing _) => True
  | .call _ => False
  | .line => True
  | .pending => True

variable {s s' f p p' : Session} {call : Call} {reply : Reply} {query : Query}
  {token wanted : String} {found : Option String} {fault : Fault}
  {answer : Except Fault (Option String)}

/-! ## Taking -/

/-- The ways in which a call that takes can end. -/
inductive Taking (s : Session) : Call → Except Fault Reply → Session → Prop where
  | any {found : Option String} {s' : Session} (hnext : s.next = (.ok found, s')) :
    Taking s .next (.ok (.token found)) s'
  | came {wanted : String} {call : Call} {s' : Session}
    (hcall : call = .accept wanted ∨ call = .require wanted)
    (hnext : s.next = (.ok (some wanted), s')) : Taking s call (.ok (.matched true)) s'
  | passed {wanted : String} {found : Option String} {t s' : Session} (hne : found ≠ some wanted)
    (hnext : s.next = (.ok found, t)) (hcourse : s'.course = s.course) :
    Taking s (.accept wanted) (.ok (.matched false)) s'
  | refused {wanted : String} {found : Option String} {t s' : Session} (hne : found ≠ some wanted)
    (hnext : s.next = (.ok found, t)) (hended : s'.Ended) :
    Taking s (.require wanted) (.error (.unexpected found wanted t.line)) s'
  | fault {call : Call} {fault : Fault} {s' : Session} (hnext : s.next = (.error fault, s')) :
    Taking s call (.error fault) s'

theorem taking_accept (s : Session) (wanted : String) :
    s.Taking (.accept wanted) (s.perform (.accept wanted)).1 (s.perform (.accept wanted)).2 := by
  rcases hnext : s.next with ⟨fault | found, t⟩
  · have hpeek := peek_of_next_last hnext (by simp)
    simp only [perform, accept, hpeek]
    exact .fault hnext
  · obtain ⟨peeked, hpeek, -, htail⟩ := peek_of_next hnext
    by_cases hfound : found = some wanted
    · subst hfound
      simp only [perform, accept, hpeek, ↓reduceIte, htail (by simp)]
      exact .came (.inl rfl) hnext
    · simp only [perform, accept, hpeek, hfound, ↓reduceIte]
      exact .passed hfound hnext (course_of_peek hpeek)

theorem taking_require (s : Session) (wanted : String) :
    s.Taking (.require wanted) (s.perform (.require wanted)).1
      (s.perform (.require wanted)).2 := by
  rcases hnext : s.next with ⟨fault | found, t⟩
  · have hpeek := peek_of_next_last hnext (by simp)
    simp only [perform, require, hpeek]
    exact .fault hnext
  · obtain ⟨peeked, hpeek, hline, htail⟩ := peek_of_next hnext
    by_cases hfound : found = some wanted
    · subst hfound
      simp only [perform, require, hpeek, ↓reduceIte, htail (by simp)]
      exact .came (.inr rfl) hnext
    · simp only [perform, require, hpeek, hfound, ↓reduceIte, hline]
      exact .refused hfound hnext (ended_abort (α := Unit) ..)

theorem taking_perform (htaking : call.IsTaking) :
    s.Taking call (s.perform call).1 (s.perform call).2 := by
  cases call with
  | next =>
    rcases hnext : s.next with ⟨fault | found, t⟩
    · rw [perform, hnext]
      exact .fault hnext
    · rw [perform, hnext]
      exact .any hnext
  | accept wanted => exact s.taking_accept wanted
  | require wanted => exact s.taking_require wanted
  | _ => cases htaking

theorem perform_eq_answerTo (htaking : call.IsTaking) :
    (s.perform call).1 = call.answerTo s.next.1 s.next.2.line := by
  have h := s.taking_perform htaking
  generalize (s.perform call).1 = answer at h ⊢
  cases h with
  | any hnext => rw [hnext]; rfl
  | came hcall hnext => rcases hcall with rfl | rfl <;> simp [hnext, Call.answerTo, Except.map]
  | passed hne hnext hcourse => simp [hnext, Call.answerTo, Except.map, hne]
  | refused hne hnext hended => simp [hnext, Call.answerTo, hne]
  | fault hnext =>
    rw [hnext]
    cases call with
    | next => rfl
    | accept wanted => rfl
    | require wanted => rfl
    | _ => cases htaking

/-- A call that took a token leaves the session that `next` would have left. -/
theorem next_of_took (h : s.perform call = (.ok reply, s')) (htook : call.Took reply) :
    s.next = (.ok (call.taken reply), s') := by
  have htaking := s.taking_perform (Call.isTaking_of_took htook)
  rw [h] at htaking
  cases htaking with
  | any hnext => exact hnext
  | came hcall hnext => rcases hcall with rfl | rfl <;> exact hnext
  | passed hne hnext hcourse => cases htook

theorem ended_of_perform_fault (htaking : call.IsTaking) (h : s.perform call = (.error fault, s')) :
    s'.Ended := by
  have hended := s.taking_perform htaking
  rw [h] at hended
  cases hended with
  | refused hne hnext hended => exact hended
  | fault hnext => exact ended_of_next hnext (by simp)

theorem perform_of_next_fault (htaking : call.IsTaking) (h : s.next = (.error fault, s')) :
    s.perform call = (.error fault, s') := by
  rcases hperform : s.perform call with ⟨answer, t⟩
  have hcases := s.taking_perform htaking
  rw [hperform] at hcases
  cases hcases with
  | fault hnext =>
    obtain ⟨hfault, rfl⟩ := Prod.mk.inj (hnext.symm.trans h)
    rw [Except.error.inj hfault]
  | any hnext => cases hnext.symm.trans h
  | came hcall hnext => cases hnext.symm.trans h
  | passed hne hnext hcourse => cases hnext.symm.trans h
  | refused hne hnext hended => cases hnext.symm.trans h

/-! ## Looking -/

/-- A question that only looks leaves the course as it is, unless it meets the fault at its end. -/
theorem course_of_onlyLooks (h : s.OnlyLooks query) :
    (∃ fault s', s.next = (.error fault, s') ∧ s.ask query = (.reply (.error fault), s')) ∨
      (s.ask query).1.taken query = none ∧ (s.ask query).1.fault? = none ∧
        (s.ask query).2.course = s.course := by
  cases query with
  | line => exact .inr ⟨rfl, rfl, rfl⟩
  | pending => exact .inr ⟨rfl, rfl, rfl⟩
  | call call =>
    cases call with
    | peek =>
      rcases hpeek : s.peek with ⟨fault | found, s'⟩
      · exact .inl ⟨fault, s', next_of_peek_fault hpeek, by rw [ask, perform, hpeek]; rfl⟩
      · rw [ask, perform, hpeek]
        exact .inr ⟨rfl, rfl, course_of_peek hpeek⟩
    | accept wanted =>
      have htaking := s.taking_accept wanted
      change (s.perform (.accept wanted)).1 ≠ _ at h
      rw [ask]
      generalize s.perform (.accept wanted) = answered at h htaking ⊢
      obtain ⟨answer, s'⟩ := answered
      cases htaking with
      | came hcall hnext => exact absurd rfl h
      | passed hne hnext hcourse => exact .inr ⟨rfl, rfl, hcourse⟩
      | fault hnext => exact .inl ⟨_, _, hnext, rfl⟩
    | leading => exact .inr ⟨rfl, rfl, s.course_takeDoc _⟩
    | trailing line =>
      by_cases hslot : s.slot.any Doc.hasText
      · rw [ask, perform, takeTrailing, if_pos hslot]
        exact .inr ⟨rfl, rfl, s.course_takeDoc _⟩
      · rcases hpeek : s.peek with ⟨fault | found, s'⟩
        · refine .inl ⟨fault, s', next_of_peek_fault hpeek, ?_⟩
          rw [ask, perform, takeTrailing, if_neg hslot, hpeek]
          rfl
        · rw [ask, perform, takeTrailing, if_neg hslot, hpeek]
          exact .inr ⟨rfl, rfl, (s'.course_takeDoc _).trans (course_of_peek hpeek)⟩
    | _ => cases h

/-! ## Behind the End -/

theorem Ended.takeDoc (h : s.Ended) (rule : Doc → Bool) : (s.takeDoc rule).2.Ended :=
  ⟨⟨(s.queue_takeDoc rule).trans h.queue, (s.opened_takeDoc rule).trans h.opened⟩,
    (congrArg Reader.ahead (s.reader_takeDoc rule)).trans h.ahead⟩

/-- An ended session brings nothing, and meets a fault only where a token is required. -/
theorem Ended.ask (h : s.Ended) (hquery : ∀ token, query ≠ .call (.enqueue token)) :
    (s.ask query).2.Ended ∧ (s.ask query).1.taken query = none ∧
      ∀ fault, (s.ask query).1.fault? = some fault →
        ∃ wanted n, fault = .unexpected none wanted n ∧ query = .call (.require wanted) := by
  have hpeek := peek_of_next_last h.next (by simp)
  cases query with
  | line => exact ⟨h, rfl, nofun⟩
  | pending => exact ⟨h, rfl, nofun⟩
  | call call =>
    cases call with
    | next =>
      rw [Session.ask, perform, h.next]
      exact ⟨h, rfl, nofun⟩
    | peek =>
      rw [Session.ask, perform, hpeek]
      exact ⟨h, rfl, nofun⟩
    | enqueue token => exact absurd rfl (hquery token)
    | accept wanted =>
      rw [Session.ask, perform, accept, hpeek]
      exact ⟨h, rfl, nofun⟩
    | require wanted =>
      rw [Session.ask, perform, require, hpeek]
      refine ⟨s.ended_abort (α := Unit) (.unexpected none wanted s.line) _, rfl,
        fun fault hfault => ⟨wanted, s.line, ?_, rfl⟩⟩
      exact (Option.some.inj hfault).symm
    | leading => exact ⟨h.takeDoc _, rfl, nofun⟩
    | trailing line =>
      by_cases hslot : s.slot.any Doc.hasText
      · rw [Session.ask, perform, takeTrailing, if_pos hslot]
        exact ⟨h.takeDoc _, rfl, nofun⟩
      · rw [Session.ask, perform, takeTrailing, if_neg hslot, hpeek]
        exact ⟨h.takeDoc _, rfl, nofun⟩

/-! ## Two Sessions on One Course -/

theorem head?_course (s : Session) : s.course.head? = some (s.next.1, s.next.2.line) := by
  rcases hnext : s.next with ⟨fault | token | token, s'⟩
  · rw [course_of_last hnext (by simp)]
    rfl
  · rw [course_of_last hnext (by simp)]
    rfl
  · rw [course_of_token hnext]
    rfl

theorem next_of_course (h : f.course = p.course) :
    f.next.1 = p.next.1 ∧ f.next.2.line = p.next.2.line ∧
      ∀ found, p.next.1 = .ok found → f.next.2.course = p.next.2.course := by
  have hhead := congrArg List.head? h
  rw [head?_course, head?_course] at hhead
  obtain ⟨hanswer, hline⟩ := Prod.mk.inj (Option.some.inj hhead)
  refine ⟨hanswer, hline, ?_⟩
  rcases hp : p.next with ⟨fault | token | token, p'⟩
  · intro found heq
    cases heq
  · intro _ _
    have hf : f.next = (.ok none, f.next.2) := Prod.ext (hanswer.trans (by rw [hp])) rfl
    have hended := ended_of_next hf (by simp)
    have hended' := ended_of_next hp (by simp)
    rw [course_of_last hended.next (by simp), course_of_last hended'.next (by simp), hline, hp]
  · intro _ _
    have hf : f.next = (.ok (some token), f.next.2) := Prod.ext (hanswer.trans (by rw [hp])) rfl
    rw [course_of_token hf, course_of_token hp] at h
    exact (List.cons.inj h).2

/-- A call that takes answers alike, and leaves the sessions on one course. -/
theorem take_of_took (h : f.course = p.course) (hperform : p.perform call = (.ok reply, p'))
    (htook : call.Took reply) :
    ∃ f', f.perform call = (.ok reply, f') ∧ f'.line = p'.line ∧ f'.course = p'.course := by
  obtain ⟨hanswer, hline, hrest⟩ := next_of_course h
  have htaking := Call.isTaking_of_took htook
  have hsame : (f.perform call).1 = (p.perform call).1 := by
    rw [perform_eq_answerTo htaking, perform_eq_answerTo htaking, hanswer, hline]
  have hf : f.perform call = (.ok reply, (f.perform call).2) :=
    Prod.ext (hsame.trans (by rw [hperform])) rfl
  have hleft : f.next.2 = (f.perform call).2 := congrArg Prod.snd (next_of_took hf htook)
  rw [hleft, next_of_took hperform htook] at hline hrest
  exact ⟨_, hf, hline, hrest _ rfl⟩

/-- A call that takes meets a fault in both sessions or in none. -/
theorem take_of_fault (h : f.course = p.course) (htaking : call.IsTaking)
    (hperform : p.perform call = (.error fault, p')) :
    ∃ f', f.perform call = (.error fault, f') ∧ f'.Ended := by
  obtain ⟨hanswer, hline, -⟩ := next_of_course h
  have hsame : (f.perform call).1 = (p.perform call).1 := by
    rw [perform_eq_answerTo htaking, perform_eq_answerTo htaking, hanswer, hline]
  have hf : f.perform call = (.error fault, (f.perform call).2) :=
    Prod.ext (hsame.trans (by rw [hperform])) rfl
  exact ⟨_, hf, ended_of_perform_fault htaking hf⟩

end Session

end SchemaLex
