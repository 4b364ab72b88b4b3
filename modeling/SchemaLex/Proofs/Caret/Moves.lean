-- SUMMARY: Where lines can be counted, the checked moves of a caret are those of its reader.
import SchemaLex.Caret.Scan
import SchemaLex.Proofs.Reader
import SchemaLex.Proofs.Trivia.Gap
import SchemaLex.Reader.Caret

/-!
# Checked Moves of a Caret

A reader cannot come to a line beyond its own, the newlines ahead and the one line that the end of
the text may end. As long as these are lines that can be counted, every move of the reader is one of
its caret: `Reader.Within` is kept by all of them. A loop that moves on to the first place of some
kind finds what the reader has in front of that place: `passUntil?_caret`.
-/

namespace SchemaLex

namespace Text

theorem byteSize_pos {cs : List Char} (h : cs ≠ []) : 0 < byteSize cs := by
  obtain ⟨c, tail, rfl⟩ := List.exists_cons_of_ne_nil h
  have hpos := c.utf8Size_pos
  rw [byteSize_cons]
  omega

/-- What is left behind the longest front without `q` starts with `q`. -/
theorem head?_dropWhile_not_all (q : Char → Bool) (cs : List Char) :
    (cs.dropWhile fun c => !q c).head?.all q := by
  have hhead := List.head?_dropWhile_not (fun c => !q c) cs
  cases hdrop : (cs.dropWhile fun c => !q c).head? with
  | none => rfl
  | some c => simpa [hdrop] using hhead

end Text

namespace Reader

variable {n : Nat} {r : Reader} {t : Trivia} {ts : List Trivia} {xs rest : List Char}

/-! ## Lines to Come -/

/-- The reader cannot come to a line beyond `n`: behind the text it is on its last line, elsewhere
    the newlines ahead and the end of the text may end one each. -/
def Within (n : Nat) (r : Reader) : Prop :=
  r.line + r.ahead.count '\n' + (if r.ahead = [] then 0 else 1) ≤ n

theorem Within.line_le (h : r.Within n) : r.line ≤ n := by
  unfold Within at h
  omega

/-- In front of the end of the text, one line more is left than newlines. -/
theorem Within.lt (h : r.Within n) (hne : r.ahead ≠ []) : r.line + r.ahead.count '\n' < n := by
  rw [Within, if_neg hne] at h
  omega

theorem Within.mono {m : Nat} (h : r.Within n) (hle : n ≤ m) : r.Within m := Nat.le_trans h hle

theorem within_ofChars (cs : List Char) : (ofChars cs).Within (cs.count '\n' + 2) := by
  have hlines : (ofChars cs).line + (ofChars cs).ahead.count '\n' = 1 + cs.count '\n' := rfl
  rw [Within, hlines]
  split <;> omega

/-- To cross characters of the text and to count at most their newlines leads to no further line. -/
theorem Within.of_crossed {r' : Reader} (h : r.Within n) (hahead : r.ahead = xs ++ r'.ahead)
    (hline : r'.line ≤ r.line + xs.count '\n') : r'.Within n := by
  have hend : r.ahead = [] → r'.ahead = [] := fun hnil => by
    rw [hahead] at hnil
    exact (List.append_eq_nil_iff.mp hnil).2
  have hcount := congrArg (List.count '\n') hahead
  rw [List.count_append] at hcount
  unfold Within at h ⊢
  split at h
  · next hnil =>
    rw [if_pos (hend hnil)]
    omega
  · split <;> omega

theorem Within.leap (h : r.Within n) (k : Nat) : (r.leap k).Within n :=
  h.of_crossed (List.take_append_drop k r.ahead).symm (Nat.le_add_right _ _)

theorem Within.advance (h : r.Within n) (k : Nat) : (r.advance k).Within n :=
  h.of_crossed (List.take_append_drop k r.ahead).symm (Nat.le_refl _)

theorem Within.toEnd (h : r.Within n) : r.toEnd.Within n := h.leap _

theorem Within.skipMark (h : r.Within n) : r.skipMark.Within n := by
  unfold Reader.skipMark
  split
  · exact h.leap 1
  · exact h

theorem Within.pass (h : r.Within n) (hahead : r.ahead = t.chars ++ rest) (hfits : t.Fits rest) :
    (r.pass t).Within n := by
  have hrest := ahead_pass_of_eq_append hahead
  have hline := line_pass hahead
  by_cases himplied : t.impliedLineEnds = 0
  · exact h.of_crossed (hrest.symm ▸ hahead) (by omega)
  · -- the comment runs to the end of the text, so the line that it ends is the one left over
    cases t with
    | line body ended =>
      cases ended with
      | true => exact absurd rfl himplied
      | false =>
        obtain ⟨-, rfl⟩ := hfits
        have hlt := h.lt (by simp [hahead, Trivia.chars])
        rw [hahead, List.append_nil] at hlt
        have hone : (Trivia.line body false).impliedLineEnds = 1 := rfl
        rw [Within, hrest, hline, hone]
        simpa using Nat.succ_le_of_lt hlt
    | _ => exact absurd rfl himplied

theorem Within.foldl_pass (h : r.Within n) (hahead : r.ahead = ts.flatMap Trivia.chars ++ rest)
    (hgap : Trivia.IsGap ts rest) : (ts.foldl Reader.pass r).Within n := by
  induction ts generalizing r with
  | nil => exact h
  | cons t ts ih =>
    rw [List.flatMap_cons, List.append_assoc] at hahead
    exact ih (h.pass hahead hgap.1) (ahead_pass_of_eq_append hahead) hgap.2

/-! ## Looking -/

@[simp] theorem line_caret (r : Reader) : r.caret.line = r.line := rfl

theorem left_caret (r : Reader) : r.caret.left = Text.byteSize r.ahead := by
  have hsize : Text.byteSize r.caret.text = r.caret.offset + Text.byteSize r.ahead :=
    r.byteSize_source
  rw [Caret.left, hsize, Nat.add_sub_cancel_left]

/-- The character under the caret is the first one ahead. -/
theorem current_caret (r : Reader) : r.caret.current = r.ahead.head?.getD '\x00' := by
  rw [Caret.current, Caret.charAt, Nat.add_zero, splitAt?_caret]
  cases r.ahead <;> rfl

/-- Behind a character of one byte, the next byte is that of the second character ahead. -/
theorem charAt_one_caret {c : Char} (hc : c.utf8Size = 1) (h : r.ahead = c :: rest) :
    r.caret.charAt 1 = rest.head?.getD '\x00' := by
  have hsplit : Text.splitAt? r.caret.text (r.caret.offset + 1) =
      some (r.behind.reverse ++ [c], rest) := by
    refine Text.splitAt?_eq_some_iff.mpr ⟨?_, ?_⟩
    · simp [caret, source, h]
    · simp [caret, hc]
  rw [Caret.charAt, hsplit]
  cases rest <;> rfl

/-- The text between two places of a reader. -/
theorem since?_caret (r : Reader) (k : Nat) :
    (r.advance k).caret.since? r.caret.offset = some (r.ahead.take k) := by
  have hbehind : (r.advance k).behind.reverse = r.behind.reverse ++ r.ahead.take k :=
    r.reverse_behind_leap k
  rw [Caret.since?, before?_caret, hbehind, Option.bind_some, caret, Text.splitAt?_append]
  rfl

/-! ## Moving -/

theorem advance_zero (r : Reader) : r.advance 0 = r := by simp [advance, leap]

theorem advance_advance (r : Reader) (k l : Nat) : (r.advance k).advance l = r.advance (k + l) := by
  simp only [advance, leap, List.take_add, List.reverse_append, List.append_assoc,
    List.drop_drop, List.count_append, Nat.add_assoc]

theorem ahead_advance_of_eq_append (h : r.ahead = xs ++ rest) :
    (r.advance xs.length).ahead = rest := by
  rw [ahead_advance, h, List.drop_left]

theorem counted?_caret (h : r.Within Caret.maxLine) : r.caret.counted? = some r.caret :=
  if_pos h.line_le

theorem moveBy?_caret (h : r.Within Caret.maxLine) (k : Nat) :
    r.caret.moveBy? k = some (r.advance k).caret := by
  rw [Caret.moveBy?, advanceBy?_caret, Option.bind_some, counted?_caret (h.advance k)]

theorem moveBytes?_caret (h : r.Within Caret.maxLine) (k : Nat) :
    r.caret.moveBytes? (Text.byteSize (r.ahead.take k)) = some (r.advance k).caret := by
  simp only [Caret.moveBytes?, advanceBytes?_caret, since?_caret, Option.bind_eq_bind,
    Option.bind_some, counted?_caret (h.advance k)]

/-- Whoever crosses text comes nearer to the end. -/
theorem left_lt_of_crossed {r' : Reader} (hne : xs ≠ []) (h : r.ahead = xs ++ r'.ahead) :
    r'.caret.left < r.caret.left := by
  have hpos := Text.byteSize_pos hne
  rw [left_caret, left_caret, h, Text.byteSize_append]
  omega

/-- A loop that stops at the first place with some kind of text ahead moves over what lies in front
    of that place. -/
theorem passUntil?_caret {stop : Caret → Bool} {p : List Char → Bool}
    (hp : ∀ r : Reader, stop r.caret = p r.ahead) (hw : r.Within Caret.maxLine)
    (h : r.ahead = xs ++ rest)
    (hgo : ∀ before c after, xs = before ++ c :: after → p (c :: after ++ rest) = false)
    (hstop : p rest) : r.caret.passUntil? stop = some (r.advance xs.length).caret := by
  induction xs generalizing r with
  | nil =>
    have hhere : stop r.caret := by rwa [hp, h]
    rw [Caret.passUntil?, if_pos hhere, List.length_nil, advance_zero]
  | cons c cs ih =>
    have hhere : stop r.caret = false := by
      rw [hp, h]
      exact hgo [] c cs rfl
    have hahead : (r.advance 1).ahead = cs ++ rest := by simp [h]
    have hless : (r.advance 1).caret.left < r.caret.left :=
      left_lt_of_crossed (List.cons_ne_nil c []) (by rw [hahead]; exact h)
    have hlater := ih (hw.advance 1) hahead fun before d after heq =>
      hgo (c :: before) d after (by rw [heq, List.cons_append])
    rw [advance_advance, Nat.add_comm] at hlater
    rw [Caret.passUntil?, hhere, if_neg Bool.false_ne_true, moveBy?_caret hw]
    simp only [hless, ↓reduceIte]
    exact hlater

/-- The same for a loop that looks at one character. -/
theorem passUntil?_caret_of_char {stop : Caret → Bool} {q : Char → Bool}
    (hq : ∀ r : Reader, stop r.caret = r.ahead.head?.all q) (hw : r.Within Caret.maxLine)
    (h : r.ahead = xs ++ rest) (hgo : ∀ c ∈ xs, q c = false) (hstop : rest.head?.all q) :
    r.caret.passUntil? stop = some (r.advance xs.length).caret := by
  refine passUntil?_caret (p := fun cs => cs.head?.all q) hq hw h ?_ hstop
  intro before c after heq
  simpa using hgo c (by simp [heq])

/-- A byte order mark is dropped at the same place. -/
theorem skipMark?_caret (hw : r.Within Caret.maxLine) :
    r.caret.skipMark? = some r.skipMark.caret := by
  have hstart : r.caret.offset = 0 ↔ r.behind = [] := by
    cases hbehind : r.behind with
    | nil => simp [caret, hbehind]
    | cons c cs =>
      have hpos := c.utf8Size_pos
      simp only [caret, hbehind, List.reverse_cons, Text.byteSize_append, Text.byteSize_cons,
        Text.byteSize_nil, reduceCtorEq, iff_false]
      omega
  unfold Caret.skipMark?
  by_cases hbehind : r.behind = []
  · rw [if_pos (hstart.mpr hbehind), after?_caret, Option.bind_some]
    by_cases hmark : r.ahead.head? = some '\uFEFF'
    · obtain ⟨rest, hrest⟩ := List.head?_eq_some_iff.mp hmark
      have hleap : r.skipMark = r.advance 1 := by
        simp [skipMark, hbehind, hrest, advance, leap]
      rw [if_pos hmark, moveBy?_caret hw, hleap]
    · rw [if_neg hmark, skipMark_of_head?_ne hmark]
  · rw [if_neg (mt hstart.mp hbehind), skipMark_of_behind_ne_nil hbehind]

end Reader

end SchemaLex
