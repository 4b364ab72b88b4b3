-- SUMMARY: Sequences of moves of one caret, with bookmarks to return to.
import SchemaLex.Caret.Scan

/-!
# Walks

A caller moves a caret about its text and sets bookmarks on the way, to which it may return in any
order and as often as it likes. A walk ends where the caret has no answer to a move, and where a
line number does not fit in 32 bits. What a caller owes does not prevent that: a count of bytes may
lead to the end of the text, and so be allowed, and still be too great to add (`Walk.Overruns`).
-/

namespace SchemaLex

/-- A caret with the bookmarks set on its way, the first one first. -/
structure Walk where
  caret : Caret
  bookmarks : List Caret.Bookmark

/-- What a caller does with a caret. -/
inductive Walk.Move where
  /-- Move over one character. -/
  | advance
  /-- Move over up to `count` characters. -/
  | advanceBy (count : Nat)
  /-- Move `count` bytes on, at most to the end. -/
  | advanceBytes (count : Nat)
  /-- Set a bookmark. -/
  | bookmark
  /-- Return to the bookmark behind the first `index`. -/
  | goBack (index : Nat)

namespace Walk

/-- A walk that starts in front of a text. -/
def ofString (text : String) : Walk := ⟨.ofString text, []⟩

/-- Makes a move. -/
def move? (w : Walk) : Move → Option Walk
  | .advance => (w.caret.advance?.bind Caret.counted?).map fun caret => { w with caret }
  | .advanceBy count => (w.caret.moveBy? count).map fun caret => { w with caret }
  | .advanceBytes count =>
    ((w.caret.advanceBytes? count).bind Caret.counted?).map fun caret => { w with caret }
  | .bookmark => some { w with bookmarks := w.bookmarks ++ [w.caret.bookmark] }
  | .goBack index => w.bookmarks[index]?.map fun mark => { w with caret := w.caret.goTo mark }

/-- Makes the moves of a list. -/
def run? (w : Walk) : List Move → Option Walk
  | [] => some w
  | move :: moves => (w.move? move).bind fun next => next.run? moves

/-! ## What a Caller Owes -/

/-- A count of bytes is a number of 64 bits, and the bytes have to end at the edge of a character or
    lead to the end of the text. A bookmark has to be set before it is returned to. -/
def Allows (w : Walk) : Move → Prop
  | .advanceBytes count =>
    count ≤ Caret.maxOffset ∧ Text.IsEdge w.caret.text (w.caret.target count)
  | .goBack index => index < w.bookmarks.length
  | _ => True

/-- The move goes over bytes to a place that has no offset. The end of the text may be nearer. -/
def Overruns (w : Walk) : Move → Prop
  | .advanceBytes count => ¬ w.caret.HasOffset count
  | _ => False

/-- Each move of the list is allowed where it is made. -/
def Permits (w : Walk) : List Move → Prop
  | [] => True
  | move :: moves => w.Allows move ∧ ∀ next ∈ w.move? move, next.Permits moves

instance (cs : List Char) (n : Nat) : Decidable (Text.IsEdge cs n) :=
  decidable_of_iff _ Text.isSome_splitAt?_iff

instance (w : Walk) : (move : Move) → Decidable (w.Allows move)
  | .advanceBytes count =>
    inferInstanceAs
      (Decidable (count ≤ Caret.maxOffset ∧ Text.IsEdge w.caret.text (w.caret.target count)))
  | .goBack index => inferInstanceAs (Decidable (index < w.bookmarks.length))
  | .advance => .isTrue trivial
  | .advanceBy _ => .isTrue trivial
  | .bookmark => .isTrue trivial

instance decidablePermits (w : Walk) : (moves : List Move) → Decidable (w.Permits moves)
  | [] => .isTrue trivial
  | move :: moves =>
    have (next : Walk) : Decidable (next.Permits moves) := next.decidablePermits moves
    inferInstanceAs (Decidable (w.Allows move ∧ ∀ next ∈ w.move? move, next.Permits moves))

end Walk

end SchemaLex
