-- SUMMARY: A place in a text between what is read and what is not, with the line counter.
import SchemaLex.Trivia

/-!
# Reader

A reader stands between the characters behind it and those ahead of it and counts lines. Moving
takes characters from one side to the other, so no move loses text: the `source_` lemmas. A move may
count the newlines that it crosses or leave the counter alone.
-/

namespace SchemaLex

/-- A place in a text and the 1-based number of its line. -/
structure Reader where
  /-- The characters read, the latest first. -/
  behind : List Char
  /-- The characters not yet read. -/
  ahead : List Char
  /-- The line counter. -/
  line : Nat
  deriving DecidableEq

namespace Reader

/-- A reader at the start of a text, on line 1. -/
def ofChars (cs : List Char) : Reader := ⟨[], cs, 1⟩

/-- The whole text. -/
def source (r : Reader) : List Char := r.behind.reverse ++ r.ahead

/-- Only indentation lies behind the reader on its line. -/
def atIndent (r : Reader) : Bool := (r.behind.takeWhile (· != '\n')).all Text.isIndent

/-! ## Moving -/

/-- Moves over `n` characters without counting lines. -/
def leap (n : Nat) (r : Reader) : Reader :=
  { r with behind := (r.ahead.take n).reverse ++ r.behind, ahead := r.ahead.drop n }

/-- Moves over `n` characters and counts their newlines. -/
def advance (n : Nat) (r : Reader) : Reader :=
  { r.leap n with line := r.line + (r.ahead.take n).count '\n' }

/-- Moves to the end of the text without counting lines. -/
def toEnd (r : Reader) : Reader := r.leap r.ahead.length

/-- Moves over an item of a gap. -/
def pass (r : Reader) (t : Trivia) : Reader :=
  let moved := r.advance t.chars.length
  { moved with line := moved.line + t.impliedLineEnds }

/-- Drops a byte order mark, which can only be the first character of a text. -/
def skipMark (r : Reader) : Reader :=
  if r.behind.isEmpty && r.ahead.head? == some '\uFEFF' then r.leap 1 else r

/-! ## The Text Stays -/

@[simp] theorem source_leap (n : Nat) (r : Reader) : (r.leap n).source = r.source := by
  simp [source, leap]

@[simp] theorem source_advance (n : Nat) (r : Reader) : (r.advance n).source = r.source :=
  r.source_leap n

@[simp] theorem source_toEnd (r : Reader) : r.toEnd.source = r.source := r.source_leap _

@[simp] theorem source_pass (r : Reader) (t : Trivia) : (r.pass t).source = r.source :=
  r.source_advance t.chars.length

@[simp] theorem source_skipMark (r : Reader) : r.skipMark.source = r.source := by
  unfold skipMark
  split <;> simp

/-! ## What Lies Ahead -/

@[simp] theorem ahead_leap (n : Nat) (r : Reader) : (r.leap n).ahead = r.ahead.drop n := rfl

@[simp] theorem ahead_advance (n : Nat) (r : Reader) : (r.advance n).ahead = r.ahead.drop n := rfl

@[simp] theorem ahead_toEnd (r : Reader) : r.toEnd.ahead = [] := by simp [toEnd]

@[simp] theorem ahead_pass (r : Reader) (t : Trivia) :
    (r.pass t).ahead = r.ahead.drop t.chars.length := rfl

/-- Passing the items at the front of a text leads behind them. -/
theorem ahead_foldl_pass (ts : List Trivia) (r : Reader) (rest : List Char)
    (h : r.ahead = ts.flatMap Trivia.chars ++ rest) : (ts.foldl pass r).ahead = rest := by
  induction ts generalizing r with
  | nil => simpa using h
  | cons t ts ih =>
    apply ih
    simp [h]

theorem length_ahead_skipMark_le (r : Reader) : r.skipMark.ahead.length ≤ r.ahead.length := by
  unfold skipMark
  split <;> simp

end Reader

end SchemaLex
