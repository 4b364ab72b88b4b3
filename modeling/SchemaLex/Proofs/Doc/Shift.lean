-- SUMMARY: The documentation of a gap when the line counter starts further on.
import SchemaLex.Doc.Captured

/-!
# Shifted Lines

A line counter that starts further on changes the line of each documentation comment by as much,
and nothing else of it.
-/

namespace SchemaLex

namespace Reader

/-- The same place, on a line `n` further on. -/
def shift (n : Nat) (r : Reader) : Reader := { r with line := r.line + n }

variable (n : Nat) (r : Reader)

theorem advance_shift (k : Nat) : (r.shift n).advance k = (r.advance k).shift n := by
  simp [shift, advance, leap, Nat.add_right_comm]

theorem pass_shift (t : Trivia) : (r.shift n).pass t = (r.pass t).shift n := by
  simp [shift, pass, advance, leap, Nat.add_right_comm]

theorem foldl_pass_shift (ts : List Trivia) :
    ts.foldl pass (r.shift n) = (ts.foldl pass r).shift n := by
  induction ts generalizing r with
  | nil => rfl
  | cons t ts ih => rw [List.foldl_cons, pass_shift, ih, List.foldl_cons]

theorem skipMark_shift : (r.shift n).skipMark = r.skipMark.shift n := by
  rw [skipMark, skipMark, apply_ite (shift n)]
  rfl

end Reader

namespace Doc

/-- The same comment, ending on a line `n` further on. -/
def shift (n : Nat) (d : Doc) : Doc := { d with line := d.line + n }

theorem shift_inj {n k : Nat} {d : Doc} (h : d.shift n = d.shift k) : n = k := by
  have hline : d.line + n = d.line + k := congrArg Doc.line h
  omega

theorem ofMarked?_shift (n : Nat) (r : Reader) (t : Trivia) :
    ofMarked? (r.shift n) t = (ofMarked? r t).map (shift n) := by
  unfold ofMarked?
  split
  · rfl
  · rw [Reader.pass_shift]
    rfl
  · rfl

theorem marked_shift (n : Nat) (r : Reader) (ts : List Trivia) :
    marked (r.shift n) ts = (marked r ts).map (shift n) := by
  induction ts generalizing r with
  | nil => rfl
  | cons t ts ih =>
    rw [marked, ofMarked?_shift, Reader.pass_shift, ih, marked, List.map_append]
    cases ofMarked? r t <;> rfl

theorem every_shift (n : Nat) (r : Reader) (ts : List Trivia) :
    every (r.shift n) ts = (every r ts).map (shift n) := by
  fun_induction every r ts with
  | case1 r => rw [every, List.map_nil]
  | case2 r c ts ih => rw [every, Reader.pass_shift, ih]
  | case3 r body ts passed ih =>
    rw [every, Reader.pass_shift, ih]
    rfl
  | case4 r body ended ts hlength below bodies text ih =>
    have hbelow : absorbed (r.shift n) ts = below := rfl
    have hline : (r.shift n).line + bodies.length = r.line + bodies.length + n :=
      Nat.add_right_comm ..
    rw [every, hbelow, Reader.pass_shift, Reader.foldl_pass_shift, ih, hline]
    rfl

theorem captured_shift (everyComment : Bool) (n : Nat) (r : Reader) (ts : List Trivia) :
    captured everyComment (r.shift n) ts = (captured everyComment r ts).map (shift n) := by
  cases everyComment with
  | true => exact every_shift n r ts
  | false => exact marked_shift n r ts

end Doc

end SchemaLex
