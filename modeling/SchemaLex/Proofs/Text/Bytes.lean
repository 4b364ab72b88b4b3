-- SUMMARY: The UTF-8 bytes of a text, and which of them are newlines.
import SchemaLex.Text.Offset

/-!
# Bytes of a Text

Offsets count the bytes of a text, and newlines can be counted among its bytes as well as among its
characters: no character but the newline has the newline's byte in it.
-/

namespace SchemaLex.Text

/-- The bytes of a text in UTF-8. -/
def bytes (cs : List Char) : List UInt8 := cs.flatMap String.utf8EncodeChar

/-- The byte of a newline. -/
def newlineByte : UInt8 := 10

variable {c : Char}

@[simp] theorem bytes_nil : bytes [] = [] := rfl

@[simp] theorem bytes_cons (c : Char) (cs : List Char) :
    bytes (c :: cs) = String.utf8EncodeChar c ++ bytes cs := rfl

theorem utf8EncodeChar_newline : String.utf8EncodeChar '\n' = [newlineByte] := rfl

/-- The bytes of other characters are below or above the newline's. -/
theorem newlineByte_not_mem (h : c ≠ '\n') : newlineByte ∉ String.utf8EncodeChar c := by
  have hval : c.val.toNat ≠ 10 := fun heq => h (Char.ext (UInt32.toNat_inj.mp heq))
  have hbyte (n : Nat) (hn : n % 256 ≠ 10) : newlineByte ≠ UInt8.ofNat n := by
    intro heq
    have := congrArg UInt8.toNat heq
    rw [UInt8.toNat_ofNat'] at this
    exact hn this.symm
  unfold String.utf8EncodeChar
  dsimp only
  split
  · next hle =>
    rw [List.mem_singleton]
    exact hbyte _ (by omega)
  · split
    · simp only [List.mem_cons, List.not_mem_nil, or_false, not_or]
      exact ⟨hbyte _ (by omega), hbyte _ (by omega)⟩
    · split
      · simp only [List.mem_cons, List.not_mem_nil, or_false, not_or]
        exact ⟨hbyte _ (by omega), hbyte _ (by omega), hbyte _ (by omega)⟩
      · simp only [List.mem_cons, List.not_mem_nil, or_false, not_or]
        exact ⟨hbyte _ (by omega), hbyte _ (by omega), hbyte _ (by omega), hbyte _ (by omega)⟩

/-- Cut anywhere behind its first byte, a character has the newline's byte if it is the newline. -/
theorem count_newlineByte_take (c : Char) (n : Nat) :
    ((String.utf8EncodeChar c).take (n + 1)).count newlineByte = [c].count '\n' := by
  by_cases hc : c = '\n'
  · subst hc
    simp [utf8EncodeChar_newline]
  · rw [List.count_eq_zero.mpr fun hmem => newlineByte_not_mem hc (List.mem_of_mem_take hmem)]
    simp [hc]

/-- The newlines below an offset are the newline bytes in front of it, at an edge or not. -/
theorem newlinesBelow_eq (cs : List Char) (n : Nat) :
    newlinesBelow cs n = ((bytes cs).take n).count newlineByte := by
  induction cs generalizing n with
  | nil => simp [newlinesBelow]
  | cons c cs ih =>
    cases n with
    | zero => simp
    | succ n =>
      rw [newlinesBelow, ih, bytes_cons, List.take_append, List.count_append,
        count_newlineByte_take, String.length_utf8EncodeChar]

end SchemaLex.Text
