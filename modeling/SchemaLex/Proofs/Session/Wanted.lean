-- SUMMARY: Asking for a wanted token agrees with taking the next one, in the whole session left.
import SchemaLex.Proofs.Session.Final

/-!
# Wanted Tokens

A caller that wants a certain token looks at the next one first and takes it only if it is the
wanted one. That agrees with taking the next token at once: where the wanted token comes the session
left is the same in every part, where another comes nothing is lost by having looked, and a fault is
the same fault: `wanted_follows_next`.
-/

namespace SchemaLex.Session

variable {s s' looked : Session} {found : Option String} {wanted : String} {fault : Fault}

/-! ## Looking -/

/-- What a look finds is taken next, and the session left is the one that taking it at once would
    have left. -/
theorem next_of_peeked (h : s.next = (.ok found, s')) :
    ∃ looked, s.peek = (.ok found, looked) ∧ looked.next = (.ok found, s') := by
  cases found with
  | none => exact ⟨s', peek_of_next_last h (by simp), (ended_of_next h (by simp)).next⟩
  | some token =>
    obtain ⟨looked, hpeek, hagain, -⟩ := peek_of_next_token h
    exact ⟨looked, hpeek, hagain⟩

/-- A fault drops what waits, so it does not matter whether the token that met it was taken. -/
theorem abort_of_peeked {α : Type} (h : s.next = (.ok found, s')) (event : Event) :
    ∃ looked, s.peek = (.ok found, looked) ∧ looked.line = s'.line ∧
      abort (α := α) looked fault event = s'.abort fault event := by
  cases found with
  | none => exact ⟨s', peek_of_next_last h (by simp), rfl, rfl⟩
  | some token =>
    obtain ⟨looked, hpeek, -, rfl⟩ := peek_of_next_token h
    exact ⟨looked, hpeek, rfl, rfl⟩

/-! ## One Call -/

theorem accept_of_fault (h : s.next = (.error fault, s')) :
    s.accept wanted = (.error fault, s') := by
  rw [accept, peek_of_next_last h (by simp)]

theorem require_of_fault (h : s.next = (.error fault, s')) :
    s.require wanted = (.error fault, s') := by
  rw [require, peek_of_next_last h (by simp)]

theorem accept_of_hit (h : s.next = (.ok (some wanted), s')) :
    s.accept wanted = (.ok true, s') := by
  obtain ⟨looked, hpeek, -, rfl⟩ := peek_of_next_token h
  rw [accept, hpeek]
  exact if_pos rfl

theorem require_of_hit (h : s.next = (.ok (some wanted), s')) :
    s.require wanted = (.ok (), s') := by
  obtain ⟨looked, hpeek, -, rfl⟩ := peek_of_next_token h
  rw [require, hpeek]
  exact if_pos rfl

/-- A token that is not wanted stays where it is. -/
theorem accept_of_miss (h : s.next = (.ok found, s')) (hmiss : found ≠ some wanted) :
    ∃ looked, s.accept wanted = (.ok false, looked) ∧ looked.next = (.ok found, s') := by
  obtain ⟨looked, hpeek, hagain⟩ := next_of_peeked h
  refine ⟨looked, ?_, hagain⟩
  rw [accept, hpeek]
  exact if_neg hmiss

/-- A token that should have been another one ends the session. -/
theorem require_of_miss (h : s.next = (.ok found, s')) (hmiss : found ≠ some wanted) :
    s.require wanted =
      s'.abort (.unexpected found wanted s'.line)
        (.refused (.unexpected found wanted s'.line)) := by
  obtain ⟨looked, hpeek, hline, habort⟩ := abort_of_peeked h _
  rw [require, hpeek, ← habort, ← hline]
  exact if_neg hmiss

/-! ## Every Session -/

/-- In whatever state a session is, asking for a wanted token tells what `next` would have brought
    and leaves what `next` would have left: at once where a fault or the wanted token comes, behind
    the `next` that follows where the call was optional and something else comes. Where it was
    required the session ends by a fault that tells the token that came, the wanted one and the
    line. -/
theorem wanted_follows_next (s : Session) (wanted : String) :
    match s.next with
    | (.error fault, s') =>
      s.accept wanted = (.error fault, s') ∧ s.require wanted = (.error fault, s')
    | (.ok found, s') =>
      if found = some wanted then
        s.accept wanted = (.ok true, s') ∧ s.require wanted = (.ok (), s')
      else
        (∃ looked, s.accept wanted = (.ok false, looked) ∧ looked.next = (.ok found, s')) ∧
          ∃ ended, s.require wanted = (.error (.unexpected found wanted s'.line), ended) ∧
            ended.ClosedBy (.unexpected found wanted s'.line) ∧ ended.IsOver := by
  rcases hnext : s.next with ⟨fault | found, s'⟩
  · exact ⟨accept_of_fault hnext, require_of_fault hnext⟩
  · dsimp only
    split
    · next hfound =>
      subst hfound
      exact ⟨accept_of_hit hnext, require_of_hit hnext⟩
    · next hmiss =>
      have hclosed : (abort (α := Unit) s' (.unexpected found wanted s'.line)
          (.refused (.unexpected found wanted s'.line))).2.ClosedBy
            (.unexpected found wanted s'.line) := s'.closedBy_abort _ rfl
      exact ⟨accept_of_miss hnext hmiss, _, require_of_miss hnext hmiss, hclosed,
        hclosed.toEnded.isOver⟩

end SchemaLex.Session
