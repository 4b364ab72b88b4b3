-- SUMMARY: What cleaning keeps of a comment of several lines: all that is not white space.
import Mathlib.Data.List.TakeWhile
import SchemaLex.Doc.Text

/-!
# Texts of Several Lines

Trimming loses white space only, so the characters that are no white space count what a text has. A
line at the front of a comment shows in its text exactly if something is left of the cleaned line.
-/

namespace SchemaLex

namespace Text

/-- The number of characters that are no white space. -/
def visible (cs : List Char) : Nat := cs.countP fun c => !isBlank c

theorem visible_append (cs ds : List Char) : visible (cs ++ ds) = visible cs + visible ds :=
  List.countP_append

theorem visible_trimStart (cs : List Char) : visible (trimStart cs) = visible cs := by
  have hblank : visible (cs.takeWhile isBlank) = 0 := by
    refine List.countP_eq_zero.mpr fun c hc => ?_
    simpa using List.mem_takeWhile_imp hc
  have hsplit := congrArg visible (List.takeWhile_append_dropWhile (p := isBlank) (l := cs))
  rw [visible_append, hblank, Nat.zero_add] at hsplit
  exact hsplit

theorem visible_reverse (cs : List Char) : visible cs.reverse = visible cs := List.countP_reverse

theorem visible_trim (cs : List Char) : visible (trim cs) = visible cs := by
  have hend : visible (trimEnd (trimStart cs)) = visible (trimStart cs).reverse := by
    rw [trimEnd, visible_reverse]
    exact visible_trimStart _
  rw [trim, hend, visible_reverse, visible_trimStart]

/-- Nothing is left exactly if all was white space. -/
theorem trim_eq_nil_iff {cs : List Char} : trim cs = [] ↔ visible cs = 0 := by
  constructor
  · intro h
    rw [← visible_trim, h]
    rfl
  · intro h
    have hall : ∀ c ∈ cs, isBlank c := by simpa [visible] using h
    have hstart : trimStart cs = [] := List.dropWhile_eq_nil_iff.mpr hall
    rw [trim, hstart]
    rfl

theorem trim_cons_of_isBlank {c : Char} (hc : isBlank c) (cs : List Char) :
    trim (c :: cs) = trim cs := by
  rw [trim, trimStart, List.dropWhile_cons_of_pos hc]
  rfl

/-! ## Lines -/

theorem unlines_cons {ls : List (List Char)} (h : ls ≠ []) (l : List Char) :
    unlines (l :: ls) = l ++ '\n' :: unlines ls := by
  rw [unlines, List.intercalate_cons_of_ne_nil h]
  simp [unlines]

theorem lines_unlines {ls : List (List Char)} (hne : ls ≠ []) (h : ∀ l ∈ ls, '\n' ∉ l) :
    lines (unlines ls) = ls :=
  List.splitOn_intercalate '\n' h hne

end Text

namespace Doc

variable {everyComment : Bool}

theorem cleanLine_eq_nil_iff {line : List Char} :
    cleanLine everyComment line = [] ↔ Text.visible (cleanLine everyComment line) = 0 := by
  rw [cleanLine, Text.visible_trim]
  exact Text.trim_eq_nil_iff

theorem normalize_unlines {ls : List (List Char)} (hne : ls ≠ []) (h : ∀ l ∈ ls, '\n' ∉ l) :
    normalize everyComment (Text.unlines ls) =
      Text.trim (Text.unlines (ls.map (cleanLine everyComment))) := by
  rw [normalize, Text.lines_unlines hne h]

/-- A line in front of other lines leaves no trace exactly if cleaning leaves nothing of it. -/
theorem normalize_unlines_cons_eq_iff {l : List Char} {ls : List (List Char)} (hne : ls ≠ [])
    (h : ∀ l' ∈ l :: ls, '\n' ∉ l') :
    normalize everyComment (Text.unlines (l :: ls)) = normalize everyComment (Text.unlines ls) ↔
      cleanLine everyComment l = [] := by
  have hmap : ls.map (cleanLine everyComment) ≠ [] := by simpa using hne
  rw [normalize_unlines (List.cons_ne_nil _ _) h,
    normalize_unlines hne (List.forall_mem_cons.mp h).2, List.map_cons, Text.unlines_cons hmap]
  constructor
  · intro heq
    have hcount := congrArg Text.visible heq
    rw [Text.visible_trim, Text.visible_trim, Text.visible_append] at hcount
    have hline : Text.visible ('\n' :: Text.unlines (ls.map (cleanLine everyComment))) =
        Text.visible (Text.unlines (ls.map (cleanLine everyComment))) :=
      List.countP_cons_of_neg (by decide)
    rw [cleanLine_eq_nil_iff]
    omega
  · intro hnil
    rw [hnil, List.nil_append, Text.trim_cons_of_isBlank Text.isBlank_newline]

end Doc

end SchemaLex
