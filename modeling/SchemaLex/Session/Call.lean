-- SUMMARY: The calls a parser makes of a session, and runs of them.
import SchemaLex.Session.Attribution

/-!
# Calls

A parser drives a session by a sequence of calls. Each is answered by a reply or by a fault, and a
session that met a fault still answers.
-/

namespace SchemaLex

/-- A call of a session. -/
inductive Call where
  /-- Take the next token. -/
  | next
  /-- Look at the next token. -/
  | peek
  /-- Put a token back. -/
  | enqueue (token : String)
  /-- Take the next token if it is the wanted one. -/
  | accept (wanted : String)
  /-- Take the next token, which has to be the wanted one. -/
  | require (wanted : String)
  /-- Hand out the comment above. -/
  | leading
  /-- Hand out the comment beside the token on a line. -/
  | trailing (line : Nat)
  deriving DecidableEq

/-- What a call brings. -/
inductive Reply where
  /-- Nothing but the change of the session. -/
  | done
  /-- A token, or the end of the text. -/
  | token (token : Option String)
  /-- Whether the wanted token came. -/
  | matched (came : Bool)
  /-- The text of a comment, if one was handed out. -/
  | doc (text : Option String)
  deriving DecidableEq

namespace Session

/-- Answers a call. -/
def perform (s : Session) : Call → Except Fault Reply × Session
  | .next =>
    let (answer, s) := s.next
    (answer.map .token, s)
  | .peek =>
    let (answer, s) := s.peek
    (answer.map .token, s)
  | .enqueue token => (.ok .done, s.enqueue token)
  | .accept wanted =>
    let (answer, s) := s.accept wanted
    (answer.map .matched, s)
  | .require wanted =>
    let (answer, s) := s.require wanted
    (answer.map fun _ => .matched true, s)
  | .leading =>
    let (text, s) := s.takeLeading
    (.ok (.doc text), s)
  | .trailing line =>
    let (answer, s) := s.takeTrailing line
    (answer.map .doc, s)

/-- Answers a sequence of calls, a fault among them or not. -/
def run (s : Session) : List Call → List (Except Fault Reply) × Session
  | [] => ([], s)
  | call :: calls =>
    let answered := s.perform call
    let later := answered.2.run calls
    (answered.1 :: later.1, later.2)

@[simp] theorem run_nil (s : Session) : s.run [] = ([], s) := rfl

theorem run_append (s : Session) (first last : List Call) :
    s.run (first ++ last) =
      ((s.run first).1 ++ ((s.run first).2.run last).1, ((s.run first).2.run last).2) := by
  induction first generalizing s with
  | nil => rfl
  | cons call calls ih => simp [run, ih]

end Session

end SchemaLex
