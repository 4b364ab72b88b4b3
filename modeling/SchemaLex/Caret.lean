-- SUMMARY: A movable place in a text, addressed by byte offset, with a line counter.
import SchemaLex.Text.Blank
import SchemaLex.Text.Offset

/-!
# Caret

A caret stands at a byte offset of a text and counts the lines it crosses. Callers may set it
anywhere, also inside a character or beyond the text; an operation that has to look at the text from
such a place has no answer. Nor has one that has to add a count of bytes to the offset, where the
sum is beyond the greatest offset.
-/

namespace SchemaLex

/-- A place in a text and the 1-based number of its line. -/
structure Caret where
  /-- The whole text. -/
  text : List Char
  /-- The place, in bytes from the start of the text. -/
  offset : Nat
  /-- The line counter. -/
  line : Nat

namespace Caret

/-- A caret at the start of a text, on line 1. -/
def ofString (s : String) : Caret := ⟨s.toList, 0, 1⟩

/-- Nothing of the text lies at or behind the caret. -/
def atEnd (c : Caret) : Bool := Text.byteSize c.text ≤ c.offset

/-- The greatest number that 64 bits hold. -/
def maxOffset : Nat := UInt64.size - 1

/-- The place `count` bytes further on has an offset. So has every place of the text: no text in
    memory is longer than the greatest offset. -/
def HasOffset (c : Caret) (count : Nat) : Prop :=
  c.offset + count ≤ max maxOffset (Text.byteSize c.text)

instance (c : Caret) (count : Nat) : Decidable (c.HasOffset count) :=
  inferInstanceAs (Decidable (_ ≤ _))

/-! ## Looking -/

/-- The character `ahead` bytes further on, NUL beyond the text or inside a character. -/
def charAt (c : Caret) (ahead : Nat) : Char :=
  match Text.splitAt? c.text (c.offset + ahead) with
  | some (_, found :: _) => found
  | _ => '\x00'

/-- The same for an `ahead` of any size. -/
def charAt? (c : Caret) (ahead : Nat) : Option Char :=
  if c.HasOffset ahead then some (c.charAt ahead) else none

/-- The character under the caret. -/
def current (c : Caret) : Char := c.charAt 0

/-- The text before the caret. -/
def before? (c : Caret) : Option (List Char) := (Text.splitAt? c.text c.offset).map (·.1)

/-- The text from the caret on. -/
def after? (c : Caret) : Option (List Char) := (Text.splitAt? c.text c.offset).map (·.2)

/-- The text from the offset `start` up to the caret. -/
def since? (c : Caret) (start : Nat) : Option (List Char) :=
  c.before?.bind fun before => (Text.splitAt? before start).map (·.2)

/-- Whether only indentation lies before the caret on its line. -/
def atIndent? (c : Caret) : Option Bool :=
  c.before?.map fun before => (before.reverse.takeWhile (· != '\n')).all Text.isIndent

/-! ## Moving -/

/-- Moves over up to `count` characters and counts their newlines. -/
def advanceBy? (count : Nat) (c : Caret) : Option Caret :=
  if c.atEnd || count == 0 then some c
  else
    c.after?.map fun after =>
      let crossed := after.take count
      { c with
        offset := c.offset + Text.byteSize crossed
        line := c.line + crossed.count '\n' }

/-- Moves over one character; at the end there is none to move over. -/
def advance? (c : Caret) : Option Caret := c.advanceBy? 1

/-- The offset `count` bytes further on, at most the end of the text. -/
def target (c : Caret) (count : Nat) : Nat := min (c.offset + count) (Text.byteSize c.text)

/-- Moves `count` bytes on, at most to the end, and counts the newlines crossed. -/
def advanceBytes? (count : Nat) (c : Caret) : Option Caret :=
  if c.HasOffset count ∧ c.offset ≤ Text.byteSize c.text then
    let crossed := Text.newlinesBelow c.text (c.target count) - Text.newlinesBelow c.text c.offset
    some { c with offset := c.target count, line := c.line + crossed }
  else none

/-- Moves `count` bytes on, at most to the end, and leaves the line counter alone. -/
def leapBytes (count : Nat) (c : Caret) : Caret := { c with offset := c.target count }

/-- The same for a count of any size. -/
def leapBytes? (count : Nat) (c : Caret) : Option Caret :=
  if c.HasOffset count then some (c.leapBytes count) else none

/-- Ends the line: moves over its newline, or only counts the line at the end of the text. -/
def endLine? (c : Caret) : Option Caret :=
  if c.atEnd then some { c with line := c.line + 1 } else c.advance?

/-- Moves to the end of the text and leaves the line counter alone. -/
def toEnd (c : Caret) : Caret := { c with offset := Text.byteSize c.text }

/-! ## Bookmarks -/

/-- A place to return to. Nothing ties it to a text. -/
structure Bookmark where
  /-- The place, in bytes. -/
  offset : Nat
  /-- The line counter at that place. -/
  line : Nat

/-- The place the caret stands at. -/
def bookmark (c : Caret) : Bookmark := ⟨c.offset, c.line⟩

/-- Moves to a bookmark, whatever lies there. -/
def goTo (b : Bookmark) (c : Caret) : Caret := { c with offset := b.offset, line := b.line }

end Caret

end SchemaLex
