-- SUMMARY: What one scan brings and where it leaves the session, case by case.
import SchemaLex.Proofs.Reader
import SchemaLex.Proofs.Trivia.Gap
import SchemaLex.Session.Drained

/-!
# Scanning

One equation for each way in which a scan ends. The session that a scan leaves has a name of its
own, `takeLexeme` or `takeBody`, so that its fields are read off by `simp`.
-/

namespace SchemaLex

namespace Session

/-- No token waits and no literal is open: the next token is a lexeme of the text. -/
structure Idle (s : Session) : Prop where
  queue : s.queue = []
  opened : s.opened = none

theorem next_of_idle {s : Session} (h : s.Idle) : s.next = s.scanLexeme := by
  simp [next, scan, h.queue, h.opened]

theorem next_of_opened {s : Session} {q : Quote} (hqueue : s.queue = [])
    (hopened : s.opened = some q) : s.next = s.scanBody q := by
  simp [next, scan, hqueue, hopened]

theorem scan_of_not_opened {s : Session} (h : s.opened = none) : s.scan = s.scanLexeme := by
  simp [scan, h]

theorem scan_of_opened {s : Session} {q : Quote} (h : s.opened = some q) :
    s.scan = s.scanBody q := by
  simp [scan, h]

theorem scan_of_idle {s : Session} (h : s.Idle) : s.scan = s.scanLexeme :=
  scan_of_not_opened h.opened

theorem peek_of_token {s s' : Session} {token : String} (hqueue : s.queue = [])
    (h : s.scan = (.ok (some token), s')) :
    s.peek = (.ok (some token), { s' with queue := token :: s'.queue }) := by
  simp only [peek, hqueue, h]

theorem peek_of_end {s s' : Session} (hqueue : s.queue = []) (h : s.scan = (.ok none, s')) :
    s.peek = (.ok none, s') := by
  simp only [peek, hqueue, h]

theorem peek_of_fault {s s' : Session} {fault : Fault} (hqueue : s.queue = [])
    (h : s.scan = (.error fault, s')) : s.peek = (.error fault, s') := by
  simp only [peek, hqueue, h]

/-! ## Lexemes -/

theorem ahead_skipGap (s : Session) :
    s.skipGap.reader.ahead = (Trivia.gap s.reader.skipMark.ahead).2 :=
  Reader.ahead_foldl_pass _ _ _ (Trivia.flatMap_chars_gap _).symm

/-- At the end of the text there is no gap to pass. -/
theorem skipGap_of_end {s : Session} (h : s.reader.ahead = []) : s.skipGap = s := by
  have hskip : s.reader.skipMark = s.reader := Reader.skipMark_of_head?_ne (by simp [h])
  have hitems : s.gapItems = [] := by rw [gapItems, hskip, h, Trivia.gap_nil]
  have hdocs : s.gapDocs = [] := by rw [gapDocs, hitems, Doc.captured_nil]
  simp [skipGap, hitems, hdocs, hskip]

/-- Behind a gap there is no white space. -/
theorem not_isBlank_of_ahead_skipGap {s : Session} {c : Char} {cs : List Char}
    (h : s.skipGap.reader.ahead = c :: cs) : Text.isBlank c = false := by
  rw [ahead_skipGap] at h
  exact Trivia.not_isBlank_of_read?_eq_none (h ▸ Trivia.read?_gap _)

/-- The session behind the lexeme at its place. -/
def takeLexeme (s : Session) (l : Lexeme) : Session :=
  let reader := s.reader.advance l.chars.length
  { s with reader, opened := l.quote?, log := .token l.token reader.line :: s.log }

@[simp] theorem reader_takeLexeme (s : Session) (l : Lexeme) :
    (s.takeLexeme l).reader = s.reader.advance l.chars.length := rfl

@[simp] theorem queue_takeLexeme (s : Session) (l : Lexeme) :
    (s.takeLexeme l).queue = s.queue := rfl

@[simp] theorem opened_takeLexeme (s : Session) (l : Lexeme) :
    (s.takeLexeme l).opened = l.quote? := rfl

@[simp] theorem slot_takeLexeme (s : Session) (l : Lexeme) : (s.takeLexeme l).slot = s.slot := rfl

theorem scanLexeme_of_end {s : Session} (h : s.skipGap.reader.ahead = []) :
    s.scanLexeme = (.ok none, s.skipGap) := by
  simp [scanLexeme, h]

/-- The session at the end of the text, behind a gap that does not end. -/
def passOpenComment (s : Session) : Session :=
  { s.skipGap with reader := s.skipGap.reader.advance s.skipGap.reader.ahead.length }

theorem scanLexeme_of_openComment {s : Session} {body : List Char}
    (h : s.skipGap.reader.ahead = '/' :: '*' :: body) :
    s.scanLexeme =
      s.passOpenComment.abort (.openComment s.passOpenComment.line)
        (.openComment s.passOpenComment.line) := by
  unfold scanLexeme
  dsimp only
  split
  · next heq => rw [heq] at h; cases h
  · rfl
  · next hne heq =>
    rw [heq] at h
    obtain ⟨rfl, rfl⟩ := List.cons.inj h
    exact absurd rfl (hne body rfl)

theorem scanLexeme_of_cons {s : Session} {c : Char} {cs : List Char}
    (h : s.skipGap.reader.ahead = c :: cs) (hslash : c = '/' → cs.head? ≠ some '*') :
    s.scanLexeme =
      (.ok (some (Lexeme.first c cs).token), s.skipGap.takeLexeme (Lexeme.first c cs)) := by
  unfold scanLexeme
  dsimp only
  split
  · next heq => rw [heq] at h; cases h
  · next heq =>
    rw [heq] at h
    obtain ⟨rfl, rfl⟩ := List.cons.inj h
    exact absurd rfl (hslash rfl)
  · next heq =>
    rw [heq] at h
    obtain ⟨rfl, rfl⟩ := List.cons.inj h
    rfl

/-- Looking at a lexeme or at the end passes the gap in front of it, and nothing else changes the
    slot. -/
theorem peek_of_idle {s : Session} (h : s.Idle) :
    (Trivia.OpensBlock s.skipGap.reader.ahead →
      ∃ line s', s.peek = (.error (.openComment line), s')) ∧
    (¬ Trivia.OpensBlock s.skipGap.reader.ahead →
      ∃ token s', s.peek = (.ok token, s') ∧ s'.slot = s.skipGap.slot) := by
  constructor
  · rintro ⟨body, hahead⟩
    have hscan := (scan_of_idle h).trans (scanLexeme_of_openComment hahead.symm)
    exact ⟨_, _, peek_of_fault h.queue hscan⟩
  · intro hopens
    cases hahead : s.skipGap.reader.ahead with
    | nil =>
      have hscan := (scan_of_idle h).trans (scanLexeme_of_end hahead)
      exact ⟨none, s.skipGap, peek_of_end h.queue hscan, rfl⟩
    | cons c cs =>
      have hslash := Trivia.head?_ne_star_of_not_opensBlock (hahead ▸ hopens)
      have hscan := (scan_of_idle h).trans (scanLexeme_of_cons hahead hslash)
      exact ⟨_, _, peek_of_token h.queue hscan, rfl⟩

/-! ## Literal Bodies -/

/-- The session behind the literal body at its place and the quote that closes it. -/
def takeBody (s : Session) (q : Quote) (body : List Char) : Session :=
  let width := body.length + 1
  let reader :=
    if s.options.countLiteralLines then s.reader.advance width else s.reader.leap width
  { s with
    reader, queue := s.queue ++ [q.token], opened := none
    log := .body (String.ofList body) reader.line :: s.log }

@[simp] theorem queue_takeBody (s : Session) (q : Quote) (body : List Char) :
    (s.takeBody q body).queue = s.queue ++ [q.token] := rfl

@[simp] theorem opened_takeBody (s : Session) (q : Quote) (body : List Char) :
    (s.takeBody q body).opened = none := rfl

@[simp] theorem ahead_takeBody (s : Session) (q : Quote) (body : List Char) :
    (s.takeBody q body).reader.ahead = s.reader.ahead.drop (body.length + 1) := by
  unfold takeBody
  dsimp only
  split <;> rfl

theorem behind_takeBody (s : Session) (q : Quote) (body : List Char) :
    (s.takeBody q body).reader.behind =
      (s.reader.ahead.take (body.length + 1)).reverse ++ s.reader.behind := by
  unfold takeBody
  dsimp only
  split <;> rfl

theorem scanBody_of_none {s : Session} {q : Quote} (h : Literal.split? q s.reader.ahead = none) :
    s.scanBody q = s.abort (.openLiteral s.line) (.openLiteral q s.line) := by
  simp [scanBody, h]

theorem scanBody_of_some {s : Session} {q : Quote} {body rest : List Char}
    (h : Literal.split? q s.reader.ahead = some (body, rest)) :
    s.scanBody q = (.ok (some (String.ofList (Literal.decode body))), s.takeBody q body) := by
  simp [scanBody, h, takeBody]

/-! ## Draining -/

theorem drain_of_token {s s' : Session} {token : String} (h : s.next = (.ok (some token), s')) :
    s.drain = { s'.drain with tokens := token :: s'.drain.tokens } := by
  rw [drain]
  split
  · next heq =>
    obtain ⟨htoken, rfl⟩ := Prod.mk.inj (heq.symm.trans h)
    obtain rfl := Option.some.inj (Except.ok.inj htoken)
    rfl
  · next heq => cases heq.symm.trans h
  · next heq => cases heq.symm.trans h

theorem drain_of_end {s s' : Session} (h : s.next = (.ok none, s')) : s.drain = ⟨[], none, s'⟩ := by
  rw [drain]
  split
  · next heq => cases heq.symm.trans h
  · next heq => rw [(Prod.mk.inj (heq.symm.trans h)).2]
  · next heq => cases heq.symm.trans h

theorem drain_of_fault {s s' : Session} {fault : Fault} (h : s.next = (.error fault, s')) :
    s.drain = ⟨[], some fault, s'⟩ := by
  rw [drain]
  split
  · next heq => cases heq.symm.trans h
  · next heq => cases heq.symm.trans h
  · next heq =>
    obtain ⟨hfault, rfl⟩ := Prod.mk.inj (heq.symm.trans h)
    rw [Except.error.inj hfault]

end Session

end SchemaLex
