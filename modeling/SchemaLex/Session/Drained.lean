-- SUMMARY: Taking all tokens of a session, with or without their documentation.
import SchemaLex.Session.Progress

/-!
# Drained Sessions

What a session brings when it is asked until no token comes. It ends at the end of the text or at a
fault. The answers can be kept with the session after each, or with the comments of each token.
-/

namespace SchemaLex

/-- All that a session brings. -/
structure Drained where
  /-- The tokens, in order. -/
  tokens : List String
  /-- The fault that ended the session, if one did. -/
  fault : Option Fault
  /-- The session at its end. -/
  session : Session

/-- The tokens, unless a fault ended the session. -/
def Drained.result (d : Drained) : Except Fault (List String) :=
  match d.fault with
  | none => .ok d.tokens
  | some fault => .error fault

/-- The number of answers: the tokens and the fault. -/
def Drained.size (d : Drained) : Nat := d.tokens.length + d.fault.toList.length

/-- A token with the comments that belong to it. -/
structure Documented where
  token : String
  /-- The line of the session behind the token. -/
  line : Nat
  /-- The comment above. -/
  leading : Option String
  /-- The comment beside, or the fault met on the way to it, if it was asked for. -/
  trailing : Option (Except Fault (Option String))

namespace Session

/-- Takes the tokens until none comes. -/
def drain (s : Session) : Drained :=
  match h : s.next with
  | (.ok (some token), s') =>
    have := weight_next h
    let later := s'.drain
    { later with tokens := token :: later.tokens }
  | (.ok none, s') => ⟨[], none, s'⟩
  | (.error fault, s') => ⟨[], some fault, s'⟩
termination_by s.weight

/-- The answers of `next` up to the first that is no token, each with the session it leaves. -/
def answers (s : Session) : List (Except Fault (Option String) × Session) :=
  match h : s.next with
  | (.ok (some token), s') =>
    have := weight_next h
    (.ok (some token), s') :: s'.answers
  | last => [last]
termination_by s.weight

/-- Takes the next item of the sequence that the tokens and a fault make up, `none` behind it. -/
def item (s : Session) : Option (Except Fault String) × Session :=
  match s.next with
  | (.ok (some token), s') => (some (.ok token), s')
  | (.ok none, s') => (none, s')
  | (.error fault, s') => (some (.error fault), s')

/-- Hands out the comment beside the token on `line`, if it is asked for. -/
def takeBeside (s : Session) (asked : Bool) (line : Nat) :
    Option (Except Fault (Option String)) × Session :=
  if asked then
    let (answer, s) := s.takeTrailing line
    (some answer, s)
  else (none, s)

theorem weight_takeBeside_le (s : Session) (asked : Bool) (line : Nat) :
    (s.takeBeside asked line).2.weight ≤ s.weight := by
  unfold takeBeside
  split
  · exact s.weight_takeTrailing_le line
  · exact Nat.le_refl _

/-- Takes the tokens with the comment above each, and the comment beside each that `asks` names.
    Comes with the last answer of `next` and the session it leaves. -/
def documented (asks : String → Bool) (s : Session) :
    List Documented × Except Fault (Option String) × Session :=
  match h : s.next with
  | (.ok (some token), s') =>
    let above := s'.takeLeading
    let beside := above.2.takeBeside (asks token) s'.line
    have : beside.2.weight < s.weight := by
      have htoken := weight_next h
      have habove : above.2.weight = s'.weight := s'.weight_takeDoc _
      have hbeside : beside.2.weight ≤ above.2.weight := above.2.weight_takeBeside_le _ _
      omega
    let later := beside.2.documented asks
    (⟨token, s'.line, above.1, beside.1⟩ :: later.1, later.2)
  | last => ([], last)
termination_by s.weight

end Session

end SchemaLex
