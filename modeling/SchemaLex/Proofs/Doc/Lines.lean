-- SUMMARY: The text of a comment line by line: the cleaned lines without the empty ones around.
import Mathlib.Data.List.DropRight
import SchemaLex.Proofs.Doc.Text

/-!
# Comments Line by Line

The text of a comment is trimmed twice, each line and then the whole. On lines that are trimmed
already, to trim the whole drops the empty lines at its two ends and nothing else:
`normalize_eq_unlines`.
-/

namespace SchemaLex

namespace Text

/-- The lines without the empty ones in front and behind. -/
def trimLines (ls : List (List Char)) : List (List Char) :=
  (ls.dropWhile List.isEmpty).rdropWhile List.isEmpty

/-- There is no white space at either end. -/
structure IsTrim (l : List Char) : Prop where
  front : trimStart l = l
  back : trimEnd l = l

variable {l : List Char} {ls ms : List (List Char)}

theorem not_isBlank_of_trimStart {c : Char} {cs : List Char} (h : trimStart (c :: cs) = c :: cs) :
    isBlank c = false := by
  have hhead : c ∈ (trimStart (c :: cs)).head? := by rw [h]; rfl
  exact not_isBlank_of_mem_head?_trimStart hhead

theorem trimStart_of_not_isBlank {c : Char} (hc : isBlank c = false) (cs : List Char) :
    trimStart (c :: cs) = c :: cs := by
  rw [trimStart, List.dropWhile_cons_of_neg (Bool.not_eq_true _ ▸ hc)]

theorem isTrim_trim (cs : List Char) : IsTrim (trim cs) where
  front := by
    have hprefix : trim cs <+: trimStart cs := List.rdropWhile_prefix isBlank _
    cases htrim : trim cs with
    | nil => rfl
    | cons c rest =>
      obtain ⟨tail, hstart⟩ := htrim ▸ hprefix
      have hhead : c ∈ (trimStart cs).head? := by rw [← hstart]; rfl
      exact trimStart_of_not_isBlank (not_isBlank_of_mem_head?_trimStart hhead) rest
  back := List.rdropWhile_idempotent isBlank (trimStart cs)

/-! ## Joined Lines -/

theorem unlines_append (hne : ls ≠ []) (hne' : ms ≠ []) :
    unlines (ls ++ ms) = unlines ls ++ '\n' :: unlines ms := by
  induction ls with
  | nil => exact absurd rfl hne
  | cons l ls ih =>
    cases ls with
    | nil => rw [List.singleton_append, unlines_cons hne', unlines_singleton]
    | cons l' ls =>
      rw [List.cons_append, unlines_cons (by simp), ih (by simp), unlines_cons (by simp) l,
        List.append_assoc, List.cons_append]

/-- Read backwards, a text has its lines backwards, the last one first. -/
theorem reverse_unlines (ls : List (List Char)) :
    (unlines ls).reverse = unlines (ls.map List.reverse).reverse := by
  induction ls with
  | nil => rfl
  | cons l ls ih =>
    cases ls with
    | nil => simp
    | cons l' ls =>
      have hlast : ((l :: l' :: ls).map List.reverse).reverse =
          ((l' :: ls).map List.reverse).reverse ++ [l.reverse] := by
        rw [List.map_cons, List.reverse_cons]
      rw [hlast, unlines_append (by simp) (by simp), ← ih, unlines_singleton,
        unlines_cons (by simp), List.reverse_append, List.reverse_cons, List.append_assoc]
      rfl

/-- Trimming at the front drops the empty lines in front. -/
theorem trimStart_unlines (h : ∀ l ∈ ls, trimStart l = l) :
    trimStart (unlines ls) = unlines (ls.dropWhile List.isEmpty) := by
  induction ls with
  | nil => rfl
  | cons l ls ih =>
    obtain ⟨hl, hls⟩ := List.forall_mem_cons.mp h
    cases l with
    | nil =>
      rw [List.dropWhile_cons_of_pos rfl, ← ih hls]
      cases ls with
      | nil => rfl
      | cons l' ls =>
        rw [unlines_cons (by simp), List.nil_append, trimStart,
          List.dropWhile_cons_of_pos isBlank_newline]
        rfl
    | cons c cs =>
      have hc := not_isBlank_of_trimStart hl
      rw [List.dropWhile_cons_of_neg Bool.false_ne_true]
      cases ls with
      | nil =>
        rw [unlines_singleton]
        exact hl
      | cons l' ls =>
        rw [unlines_cons (by simp)]
        exact trimStart_of_not_isBlank hc _

/-- Trimming at the back drops the empty lines behind. -/
theorem trimEnd_unlines (h : ∀ l ∈ ls, trimEnd l = l) :
    trimEnd (unlines ls) = unlines (ls.rdropWhile List.isEmpty) := by
  have hreverse : ∀ l ∈ ls.reverse.map List.reverse, trimStart l = l := by
    intro l hl
    obtain ⟨k, hk, rfl⟩ := List.mem_map.mp hl
    exact List.reverse_eq_iff.mp (h k (List.mem_reverse.mp hk))
  have hempty : List.isEmpty ∘ List.reverse = (List.isEmpty : List Char → Bool) :=
    funext fun l => List.isEmpty_reverse
  change (trimStart (unlines ls).reverse).reverse = _
  rw [reverse_unlines, ← List.map_reverse, trimStart_unlines hreverse, List.dropWhile_map, hempty,
    reverse_unlines, List.map_map, List.reverse_involutive.comp_self, List.map_id]
  rfl

/-- Trimming drops the empty lines in front and behind. -/
theorem trim_unlines (h : ∀ l ∈ ls, IsTrim l) : trim (unlines ls) = unlines (trimLines ls) := by
  have hrest : ∀ l ∈ ls.dropWhile List.isEmpty, trimEnd l = l := fun l hl =>
    (h l ((List.dropWhile_suffix _).subset hl)).back
  rw [trim, trimStart_unlines fun l hl => (h l hl).front, trimEnd_unlines hrest]
  rfl

end Text

namespace Doc

/-- The text of a comment has its cleaned lines, without the empty ones around them. -/
theorem normalize_eq_unlines (everyComment : Bool) (body : List Char) :
    normalize everyComment body =
      Text.unlines (Text.trimLines ((Text.lines body).map (cleanLine everyComment))) := by
  refine Text.trim_unlines fun l hl => ?_
  obtain ⟨line, -, rfl⟩ := List.mem_map.mp hl
  exact Text.isTrim_trim _

end Doc

end SchemaLex
