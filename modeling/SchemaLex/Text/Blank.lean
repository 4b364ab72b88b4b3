-- SUMMARY: White space by the Unicode property, indentation, and trimming of character lists.

/-!
# Blank Characters

Which characters are white space, and how a text loses the white space at its ends. Texts are lists
of characters throughout the library, so every cut falls between characters.
-/

namespace SchemaLex.Text

/-- White space: the 25 characters that carry the Unicode property `White_Space`. -/
def isBlank (c : Char) : Bool :=
  let n := c.toNat
  (0x09 ≤ n && n ≤ 0x0D) || n == 0x20 || n == 0x85 || n == 0xA0 || n == 0x1680 ||
    (0x2000 ≤ n && n ≤ 0x200A) || n == 0x2028 || n == 0x2029 || n == 0x202F || n == 0x205F ||
    n == 0x3000

/-- Indentation: a space or a tab. -/
def isIndent (c : Char) : Bool := c == ' ' || c == '\t'

/-- The text without the white space in front. -/
def trimStart (cs : List Char) : List Char := cs.dropWhile isBlank

/-- The text without the white space behind. -/
def trimEnd (cs : List Char) : List Char := (cs.reverse.dropWhile isBlank).reverse

/-- The text without the white space at either end. -/
def trim (cs : List Char) : List Char := trimEnd (trimStart cs)

/-! ## Classes -/

theorem isBlank_of_isIndent {c : Char} (h : isIndent c) : isBlank c := by
  simp only [isIndent, Bool.or_eq_true, beq_iff_eq] at h
  rcases h with rfl | rfl <;> decide

theorem isBlank_newline : isBlank '\n' := by decide

/-- Indentation is on one line. -/
theorem newline_not_mem_of_isIndent {indent : List Char} (h : ∀ c ∈ indent, isIndent c) :
    '\n' ∉ indent := by
  intro hmem
  exact absurd (h _ hmem) (by decide)

/-! ## Trimming -/

@[simp] theorem trim_nil : trim [] = [] := rfl

/-- What trimming at the front leaves does not start with white space. -/
theorem not_isBlank_of_mem_head?_trimStart {cs : List Char} {c : Char}
    (h : c ∈ (trimStart cs).head?) : isBlank c = false := by
  have := List.head?_dropWhile_not isBlank cs
  rw [← trimStart, Option.mem_def.mp h] at this
  simpa using this

end SchemaLex.Text
