-- SUMMARY: Cutting a text at its newlines and joining lines again.

/-!
# Lines

A text is its lines with one newline between neighbours. The empty text has one line, the empty one.
-/

namespace SchemaLex.Text

/-- The lines of a text: the parts between its newlines. -/
def lines (cs : List Char) : List (List Char) := cs.splitOn '\n'

/-- The text with the given lines: one newline between neighbours. -/
def unlines (ls : List (List Char)) : List Char := ['\n'].intercalate ls

/-- No text loses anything to being cut into lines. -/
@[simp] theorem unlines_lines (cs : List Char) : unlines (lines cs) = cs :=
  List.intercalate_splitOn '\n'

@[simp] theorem lines_nil : lines [] = [[]] := rfl

@[simp] theorem unlines_nil : unlines [] = [] := rfl

@[simp] theorem unlines_singleton (l : List Char) : unlines [l] = l := by
  simp [unlines]

end SchemaLex.Text
