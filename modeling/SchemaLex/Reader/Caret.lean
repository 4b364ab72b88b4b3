-- SUMMARY: A reader's place as a byte-addressed caret: the moves of both agree.
import SchemaLex.Caret
import SchemaLex.Reader

/-!
# The Caret of a Reader

Every place of a reader is also the place of a caret, and one where the caret has an answer: a
reader never stands inside a character or beyond its text. Each move of a reader is a move of its
caret.
-/

namespace SchemaLex.Reader

/-- The caret at the reader's place. -/
def caret (r : Reader) : Caret := ⟨r.source, Text.byteSize r.behind.reverse, r.line⟩

/-! ## Looking -/

@[simp] theorem splitAt?_caret (r : Reader) :
    Text.splitAt? r.caret.text r.caret.offset = some (r.behind.reverse, r.ahead) :=
  Text.splitAt?_append r.behind.reverse r.ahead

@[simp] theorem before?_caret (r : Reader) : r.caret.before? = some r.behind.reverse := by
  simp [Caret.before?]

@[simp] theorem after?_caret (r : Reader) : r.caret.after? = some r.ahead := by
  simp [Caret.after?]

@[simp] theorem atIndent?_caret (r : Reader) : r.caret.atIndent? = some r.atIndent := by
  simp [Caret.atIndent?, atIndent]

theorem byteSize_source (r : Reader) :
    Text.byteSize r.source = r.caret.offset + Text.byteSize r.ahead := by
  simp [source, caret]

@[simp] theorem atEnd_caret (r : Reader) : r.caret.atEnd = r.ahead.isEmpty := by
  have hsize : Text.byteSize r.caret.text = r.caret.offset + Text.byteSize r.ahead :=
    r.byteSize_source
  rw [Bool.eq_iff_iff, Caret.atEnd, decide_eq_true_iff, List.isEmpty_iff, hsize]
  cases r.ahead with
  | nil => simp
  | cons c cs =>
    have hpos := c.utf8Size_pos
    simp only [Text.byteSize_cons, reduceCtorEq, iff_false]
    omega

/-! ## Moving -/

/-- The text behind a reader that moved over `n` characters. -/
theorem reverse_behind_leap (n : Nat) (r : Reader) :
    (r.leap n).behind.reverse = r.behind.reverse ++ r.ahead.take n := by
  simp [leap]

theorem offset_caret_leap (n : Nat) (r : Reader) :
    (r.leap n).caret.offset = r.caret.offset + Text.byteSize (r.ahead.take n) := by
  simp [caret, reverse_behind_leap]

/-- Moving over characters moves the caret over as many. -/
theorem advanceBy?_caret (n : Nat) (r : Reader) :
    r.caret.advanceBy? n = some (r.advance n).caret := by
  have hoffset := r.offset_caret_leap n
  have hsource := r.source_leap n
  unfold Caret.advanceBy?
  split
  · next hstay =>
    have hnone : r.ahead.take n = [] := by
      rw [atEnd_caret, Bool.or_eq_true, List.isEmpty_iff, beq_iff_eq] at hstay
      rcases hstay with h | h <;> simp [h]
    rw [hnone, Text.byteSize_nil, Nat.add_zero] at hoffset
    simp only [caret, advance, hnone, List.count_nil, Nat.add_zero, Option.some.injEq,
      Caret.mk.injEq, and_true] at hoffset ⊢
    exact ⟨hsource.symm, hoffset.symm⟩
  · rw [after?_caret, Option.map_some, Option.some.injEq]
    simp only [caret, advance, Caret.mk.injEq, and_true] at hoffset ⊢
    exact ⟨hsource.symm, hoffset.symm⟩

/-- The bytes of characters ahead do not lead beyond the end. -/
theorem offset_add_take_le (n : Nat) (r : Reader) :
    r.caret.offset + Text.byteSize (r.ahead.take n) ≤ Text.byteSize r.caret.text := by
  have hsize : Text.byteSize r.caret.text = r.caret.offset + Text.byteSize r.ahead :=
    r.byteSize_source
  have hsplit : Text.byteSize r.ahead
      = Text.byteSize (r.ahead.take n) + Text.byteSize (r.ahead.drop n) := by
    rw [← Text.byteSize_append, List.take_append_drop]
  omega

theorem target_caret (n : Nat) (r : Reader) :
    r.caret.target (Text.byteSize (r.ahead.take n)) = (r.leap n).caret.offset := by
  rw [Caret.target, Nat.min_eq_left (r.offset_add_take_le n), offset_caret_leap]

/-- The place behind characters ahead has an offset. -/
theorem hasOffset_caret (n : Nat) (r : Reader) :
    r.caret.HasOffset (Text.byteSize (r.ahead.take n)) :=
  Nat.le_trans (r.offset_add_take_le n) (Nat.le_max_right _ _)

/-- Leaping over characters moves the caret over their bytes. -/
theorem leapBytes?_caret (n : Nat) (r : Reader) :
    r.caret.leapBytes? (Text.byteSize (r.ahead.take n)) = some (r.leap n).caret := by
  rw [Caret.leapBytes?, if_pos (r.hasOffset_caret n), Caret.leapBytes, target_caret]
  simp only [caret, source_leap, Option.some.injEq, Caret.mk.injEq, true_and]
  rfl

/-- Moving over characters moves the caret over their bytes and counts the same newlines. -/
theorem advanceBytes?_caret (n : Nat) (r : Reader) :
    r.caret.advanceBytes? (Text.byteSize (r.ahead.take n)) = some (r.advance n).caret := by
  have hstands : r.caret.offset ≤ Text.byteSize r.caret.text :=
    Nat.le_trans (Nat.le_add_right _ _) (r.offset_add_take_le n)
  have hhere : Text.newlinesBelow r.caret.text r.caret.offset = r.behind.reverse.count '\n' :=
    Text.newlinesBelow_append r.behind.reverse r.ahead
  have hthere : Text.newlinesBelow r.caret.text (r.leap n).caret.offset
      = (r.behind.reverse ++ r.ahead.take n).count '\n' := by
    have h := Text.newlinesBelow_append (r.leap n).behind.reverse (r.leap n).ahead
    rw [reverse_behind_leap] at h
    rw [← h]
    simp [caret, source, leap]
  have hcrossed : Text.newlinesBelow r.caret.text (r.leap n).caret.offset
      - Text.newlinesBelow r.caret.text r.caret.offset = (r.ahead.take n).count '\n' := by
    rw [hhere, hthere, List.count_append]
    omega
  rw [Caret.advanceBytes?, if_pos ⟨r.hasOffset_caret n, hstands⟩, target_caret, hcrossed]
  simp only [caret, advance, Option.some.injEq, Caret.mk.injEq, and_true]
  exact (r.source_leap n).symm

end SchemaLex.Reader
