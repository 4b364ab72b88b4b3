-- SUMMARY: Where the moves of a reader lead: what lies behind it and on which line it stands.
import Mathlib.Algebra.GroupWithZero.Nat
import SchemaLex.Reader

/-!
# Moves of a Reader

A move puts what it crosses behind the reader. The line counter grows by the newlines crossed and by
one more for a line comment that the end of the text ends.
-/

namespace SchemaLex.Reader

/-! ## The Byte Order Mark -/

theorem skipMark_of_behind_ne_nil {r : Reader} (h : r.behind ≠ []) : r.skipMark = r := by
  simp [skipMark, h]

theorem skipMark_of_head?_ne {r : Reader} (h : r.ahead.head? ≠ some '\uFEFF') :
    r.skipMark = r := by
  simp [skipMark, h]

/-- There is no second byte order mark to drop. -/
theorem skipMark_skipMark (r : Reader) : r.skipMark.skipMark = r.skipMark := by
  by_cases hmark : r.behind.isEmpty && r.ahead.head? == some '\uFEFF'
  · have hleap : r.skipMark = r.leap 1 := if_pos hmark
    obtain ⟨rest, hahead⟩ : ∃ rest, r.ahead = '\uFEFF' :: rest :=
      List.head?_eq_some_iff.mp (eq_of_beq (Bool.and_eq_true_iff.mp hmark).2)
    rw [hleap]
    apply skipMark_of_behind_ne_nil
    simp [leap, hahead]
  · have hsame : r.skipMark = r := if_neg hmark
    rw [hsame, hsame]

/-! ## Behind and Ahead -/

theorem behind_leap (n : Nat) (r : Reader) :
    (r.leap n).behind = (r.ahead.take n).reverse ++ r.behind := rfl

theorem behind_advance (n : Nat) (r : Reader) :
    (r.advance n).behind = (r.ahead.take n).reverse ++ r.behind := rfl

theorem behind_advance_ne_nil {n : Nat} {r : Reader} (hn : 0 < n) (h : r.ahead ≠ []) :
    (r.advance n).behind ≠ [] := by
  obtain ⟨c, cs, hcons⟩ := List.exists_cons_of_ne_nil h
  obtain ⟨m, rfl⟩ : ∃ m, n = m + 1 := ⟨n - 1, by omega⟩
  simp [behind_advance, hcons]

theorem behind_pass {r : Reader} {t : Trivia} {rest : List Char}
    (h : r.ahead = t.chars ++ rest) : (r.pass t).behind = t.chars.reverse ++ r.behind := by
  change (r.advance t.chars.length).behind = _
  rw [behind_advance, h, List.take_left]

theorem ahead_pass_of_eq_append {r : Reader} {t : Trivia} {rest : List Char}
    (h : r.ahead = t.chars ++ rest) : (r.pass t).ahead = rest := by
  rw [ahead_pass, h, List.drop_left]

/-! ## Lines -/

theorem line_le_line_pass (r : Reader) (t : Trivia) : r.line ≤ (r.pass t).line := by
  simp only [pass, advance]
  omega

theorem line_pass {r : Reader} {t : Trivia} {rest : List Char} (h : r.ahead = t.chars ++ rest) :
    (r.pass t).line = r.line + t.chars.count '\n' + t.impliedLineEnds := by
  simp only [pass, advance, h, List.take_left]

/-- A line comment ends its line, by a newline or by the end of the text. -/
theorem line_pass_line {r : Reader} {body rest : List Char} {ended : Bool} (hbody : '\n' ∉ body)
    (h : r.ahead = (Trivia.line body ended).chars ++ rest) :
    (r.pass (.line body ended)).line = r.line + 1 := by
  rw [line_pass h]
  cases ended with
  | true => simp [Trivia.chars, Trivia.impliedLineEnds, List.count_eq_zero.mpr hbody]
  | false => simp [Trivia.chars, Trivia.impliedLineEnds, List.count_eq_zero.mpr hbody]

/-- Indentation crosses no newline. -/
theorem line_foldl_pass_indent {indent : List Char} (hindent : ∀ c ∈ indent, Text.isIndent c)
    {r : Reader} {rest : List Char} (h : r.ahead = indent ++ rest) :
    ((indent.map Trivia.blank).foldl pass r).line = r.line := by
  induction indent generalizing r with
  | nil => rfl
  | cons c cs ih =>
    have hc : c ≠ '\n' := by
      rintro rfl
      exact absurd (hindent '\n' List.mem_cons_self) (by decide)
    have hpass := line_pass (t := .blank c) (by simpa [Trivia.chars] using h)
    rw [List.map_cons, List.foldl_cons, ih fun d hd => hindent d (List.mem_cons_of_mem c hd)]
    · simpa [Trivia.chars, Trivia.impliedLineEnds, hc] using hpass
    · simp [h, Trivia.chars]

/-- Where passing items leads, all at once. -/
theorem foldl_pass_eq {r : Reader} {ts : List Trivia} {rest : List Char}
    (h : r.ahead = ts.flatMap Trivia.chars ++ rest) :
    ts.foldl pass r =
      ⟨(ts.flatMap Trivia.chars).reverse ++ r.behind, rest,
        r.line + (ts.flatMap Trivia.chars).count '\n' + (ts.map Trivia.impliedLineEnds).sum⟩ := by
  induction ts generalizing r with
  | nil =>
    obtain rfl : r.ahead = rest := h
    simp
  | cons t ts ih =>
    rw [List.flatMap_cons, List.append_assoc] at h
    rw [List.foldl_cons, ih (ahead_pass_of_eq_append h), behind_pass h, line_pass h]
    simp only [List.flatMap_cons, List.reverse_append, List.append_assoc, List.count_append,
      List.map_cons, List.sum_cons, Reader.mk.injEq, true_and]
    omega

end SchemaLex.Reader
