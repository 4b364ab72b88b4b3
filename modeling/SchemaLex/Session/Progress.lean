-- SUMMARY: Each token taken makes what is left of a session smaller.
import SchemaLex.Session.Attribution

/-!
# Progress

A session cannot hand out tokens for ever. Its weight counts three for each character ahead, two for
each waiting token and one for an open literal. Taking a token lowers the weight by two or more, so
a text of `n` characters makes at most `3 * n / 2` tokens; looking ahead never raises it.
-/

namespace SchemaLex

theorem Reader.length_ahead_foldl_pass_le (ts : List Trivia) (r : Reader) :
    (ts.foldl Reader.pass r).ahead.length ≤ r.ahead.length := by
  induction ts generalizing r with
  | nil => exact Nat.le_refl _
  | cons t ts ih =>
    refine Nat.le_trans (ih (r.pass t)) ?_
    simp

namespace Session

/-- A bound on what a session can still hand out: half of it, in tokens. -/
def weight (s : Session) : Nat :=
  3 * s.reader.ahead.length + 2 * s.queue.length + s.opened.toList.length

@[simp] theorem queue_skipGap (s : Session) : s.skipGap.queue = s.queue := rfl

@[simp] theorem opened_skipGap (s : Session) : s.skipGap.opened = s.opened := rfl

@[simp] theorem options_skipGap (s : Session) : s.skipGap.options = s.options := rfl

theorem length_ahead_skipGap_le (s : Session) :
    s.skipGap.reader.ahead.length ≤ s.reader.ahead.length :=
  Nat.le_trans (Reader.length_ahead_foldl_pass_le _ _) (Reader.length_ahead_skipMark_le _)

/-- A literal body takes its closing quote at least, and that quote waits. -/
theorem scanBody_shrinks {s s' : Session} {q : Quote} {token : String}
    (h : s.scanBody q = (.ok (some token), s')) :
    s'.reader.ahead.length < s.reader.ahead.length ∧
      s'.queue.length = s.queue.length + 1 ∧ s'.opened = none := by
  unfold scanBody at h
  split at h
  · simp [abort] at h
  · next body rest hsplit =>
    obtain ⟨-, rfl⟩ := Prod.mk.inj h
    have hpos : 0 < s.reader.ahead.length := by
      simp only [Literal.eq_of_split? hsplit, List.length_append, List.length_cons]
      omega
    refine ⟨?_, by simp, rfl⟩
    dsimp only
    split <;> simp <;> omega

/-- A lexeme takes a character at least. -/
theorem scanLexeme_shrinks {s s' : Session} {token : String}
    (h : s.scanLexeme = (.ok (some token), s')) :
    s'.reader.ahead.length < s.reader.ahead.length ∧ s'.queue = s.queue := by
  unfold scanLexeme at h
  dsimp only at h
  split at h
  · simp at h
  · simp [abort] at h
  · next c rest _ hahead =>
    obtain ⟨-, rfl⟩ := Prod.mk.inj h
    have hgap := s.length_ahead_skipGap_le
    have hpos := List.length_pos_iff.mpr (Lexeme.chars_first_ne_nil c rest)
    refine ⟨?_, rfl⟩
    simp only [Reader.ahead_advance, List.length_drop, hahead] at hgap ⊢
    simp only [List.length_cons] at hgap ⊢
    omega

/-- A token scanned for an empty queue costs its weight, the waiting quote behind it included. -/
theorem weight_scan {s s' : Session} {token : String} (hqueue : s.queue = [])
    (h : s.scan = (.ok (some token), s')) : s'.weight + 2 ≤ s.weight := by
  unfold scan at h
  split at h
  · next q hopened =>
    obtain ⟨hahead, hlength, hnone⟩ := scanBody_shrinks h
    simp only [weight, hopened, hnone, hlength, hqueue, Option.toList_some, Option.toList_none,
      List.length_cons, List.length_nil]
    omega
  · next hopened =>
    obtain ⟨hahead, hsame⟩ := scanLexeme_shrinks h
    have hone : s'.opened.toList.length ≤ 1 := by cases s'.opened <;> simp
    simp only [weight, hopened, hsame, Option.toList_none, List.length_nil]
    omega

/-- Each token taken lowers the weight by two or more. -/
theorem weight_next {s s' : Session} {token : String} (h : s.next = (.ok (some token), s')) :
    s'.weight + 2 ≤ s.weight := by
  unfold next at h
  split at h
  · next t rest hqueue =>
    obtain ⟨-, rfl⟩ := Prod.mk.inj h
    simp only [weight, hqueue, List.length_cons]
    omega
  · next hqueue => exact weight_scan hqueue h

/-! ## Looking Ahead -/

/-- An ended session has nothing left. -/
@[simp] theorem weight_abort {α : Type} (s : Session) (fault : Fault) (event : Event) :
    (abort (α := α) s fault event).2.weight = 0 := by
  simp [abort, weight]

theorem weight_skipGap_le (s : Session) : s.skipGap.weight ≤ s.weight := by
  have := s.length_ahead_skipGap_le
  simp only [weight, queue_skipGap, opened_skipGap]
  omega

/-- A scan that brings no token adds nothing to what is left. -/
theorem weight_scan_le {s s' : Session} {answer : Except Fault (Option String)}
    (h : s.scan = (answer, s')) (hnone : ∀ token, answer ≠ .ok (some token)) :
    s'.weight ≤ s.weight := by
  unfold scan at h
  split at h
  · unfold scanBody at h
    split at h
    · have hend := congrArg (fun answered => answered.2.weight) h
      simp only [weight_abort] at hend
      omega
    · exact absurd (Prod.mk.inj h).1.symm (hnone _)
  · unfold scanLexeme at h
    dsimp only at h
    split at h
    · rw [← (Prod.mk.inj h).2]
      exact s.weight_skipGap_le
    · have hend := congrArg (fun answered => answered.2.weight) h
      simp only [weight_abort] at hend
      omega
    · exact absurd (Prod.mk.inj h).1.symm (hnone _)

/-- Looking at the next token adds nothing to what is left. -/
theorem weight_peek_le (s : Session) : s.peek.2.weight ≤ s.weight := by
  unfold peek
  split
  · exact Nat.le_refl _
  · next hqueue =>
    split
    · next token s' h =>
      have := weight_scan hqueue h
      simp only [weight, List.length_cons] at this ⊢
      omega
    · next s' h => exact weight_scan_le h (by simp)
    · next fault s' h => exact weight_scan_le h (by simp)

theorem weight_takeDoc (s : Session) (rule : Doc → Bool) :
    (s.takeDoc rule).2.weight = s.weight := by
  simp [weight]

theorem weight_takeTrailing_le (s : Session) (line : Nat) :
    (s.takeTrailing line).2.weight ≤ s.weight := by
  unfold takeTrailing
  split
  · exact Nat.le_of_eq (s.weight_takeDoc _)
  · have hpeek := s.weight_peek_le
    split
    · next answer s' h =>
      rw [h] at hpeek
      exact Nat.le_trans (Nat.le_of_eq (s'.weight_takeDoc _)) hpeek
    · next fault s' h =>
      rw [h] at hpeek
      exact hpeek

end Session

end SchemaLex
