-- SUMMARY: UTF-8 byte offsets into a list of characters.

/-!
# Byte Offsets

Positions that callers see count the bytes of a text in UTF-8. An offset is a place of the text only
at the edge of a character, so looking a text up by offset may have no answer.
-/

namespace SchemaLex.Text

/-- The number of bytes of a text in UTF-8. -/
def byteSize : List Char → Nat
  | [] => 0
  | c :: cs => c.utf8Size + byteSize cs

@[simp] theorem byteSize_nil : byteSize [] = 0 := rfl

@[simp] theorem byteSize_cons (c : Char) (cs : List Char) :
    byteSize (c :: cs) = c.utf8Size + byteSize cs := rfl

@[simp] theorem byteSize_append (xs ys : List Char) :
    byteSize (xs ++ ys) = byteSize xs + byteSize ys := by
  induction xs with
  | nil => simp
  | cons c cs ih => simp [ih, Nat.add_assoc]

/-! ## Cutting at an Offset -/

/-- The text before and from a byte offset, if the offset is the edge of a character or the end. -/
def splitAt? : List Char → Nat → Option (List Char × List Char)
  | cs, 0 => some ([], cs)
  | [], _ + 1 => none
  | c :: cs, n + 1 =>
    if c.utf8Size ≤ n + 1 then
      (splitAt? cs (n + 1 - c.utf8Size)).map fun (before, after) => (c :: before, after)
    else none

/-- The offset is the edge of a character, or the end, of the text. -/
def IsEdge (cs : List Char) (n : Nat) : Prop :=
  ∃ before after, cs = before ++ after ∧ byteSize before = n

@[simp] theorem splitAt?_zero (cs : List Char) : splitAt? cs 0 = some ([], cs) := by
  cases cs <;> rfl

/-- A text cuts at the size of each of its beginnings. -/
@[simp] theorem splitAt?_append (xs ys : List Char) :
    splitAt? (xs ++ ys) (byteSize xs) = some (xs, ys) := by
  induction xs with
  | nil => simp
  | cons c cs ih =>
    obtain ⟨n, hn⟩ : ∃ n, c.utf8Size = n + 1 := ⟨c.utf8Size - 1, by have := c.utf8Size_pos; omega⟩
    have hsum : byteSize (c :: cs) = (n + byteSize cs) + 1 := by simp [hn]; omega
    rw [hsum, List.cons_append, splitAt?, if_pos (by omega)]
    rw [show n + byteSize cs + 1 - c.utf8Size = byteSize cs by omega, ih]
    rfl

/-- Cutting neither loses nor moves a character, and happens at the offset asked for. -/
theorem eq_append_of_splitAt? {cs before after : List Char} {n : Nat}
    (h : splitAt? cs n = some (before, after)) : cs = before ++ after ∧ byteSize before = n := by
  induction cs, n using splitAt?.induct generalizing before after with
  | case1 cs => simp_all
  | case2 n => simp [splitAt?] at h
  | case3 c cs n hle ih =>
    rw [splitAt?, if_pos hle, Option.map_eq_some_iff] at h
    obtain ⟨⟨b, a⟩, hcut, heq⟩ := h
    obtain ⟨rfl, rfl⟩ := Prod.mk.inj heq
    obtain ⟨rfl, hsize⟩ := ih hcut
    exact ⟨rfl, by simp [hsize]; omega⟩
  | case4 c cs n hlt => simp [splitAt?, hlt] at h

theorem splitAt?_eq_some_iff {cs before after : List Char} {n : Nat} :
    splitAt? cs n = some (before, after) ↔ cs = before ++ after ∧ byteSize before = n := by
  constructor
  · exact eq_append_of_splitAt?
  · rintro ⟨rfl, rfl⟩
    exact splitAt?_append before after

/-- Exactly the edges can be cut at. -/
theorem isSome_splitAt?_iff {cs : List Char} {n : Nat} : (splitAt? cs n).isSome ↔ IsEdge cs n := by
  simp [Option.isSome_iff_exists, IsEdge, splitAt?_eq_some_iff]

/-! ## Newlines before an Offset -/

/-- The number of newlines whose offset lies below `n`. -/
def newlinesBelow : List Char → Nat → Nat
  | [], _ => 0
  | _ :: _, 0 => 0
  | c :: cs, n + 1 => [c].count '\n' + newlinesBelow cs (n + 1 - c.utf8Size)

@[simp] theorem newlinesBelow_zero (cs : List Char) : newlinesBelow cs 0 = 0 := by
  cases cs <;> rfl

/-- At an edge, the newlines below it are those of the text before it. -/
@[simp] theorem newlinesBelow_append (xs ys : List Char) :
    newlinesBelow (xs ++ ys) (byteSize xs) = xs.count '\n' := by
  induction xs with
  | nil => simp
  | cons c cs ih =>
    obtain ⟨n, hn⟩ : ∃ n, c.utf8Size = n + 1 := ⟨c.utf8Size - 1, by have := c.utf8Size_pos; omega⟩
    have hsum : byteSize (c :: cs) = (n + byteSize cs) + 1 := by simp [hn]; omega
    rw [hsum, List.cons_append, newlinesBelow]
    rw [show n + byteSize cs + 1 - c.utf8Size = byteSize cs by omega, ih]
    rw [← List.count_append, List.singleton_append]

end SchemaLex.Text
