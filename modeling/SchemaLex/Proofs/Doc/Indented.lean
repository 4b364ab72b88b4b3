-- SUMMARY: Which indentation of its lines leaves the text of a comment as it is.
import Mathlib.Algebra.Order.BigOperators.Group.List
import Mathlib.Algebra.Order.Ring.Nat
import SchemaLex.Proofs.Doc.Decoration

/-!
# Indentation

The lines of a comment are indented together with the text around them. Where every comment is
documentation the indentation is never seen in the text of the comment. Otherwise only spaces may
stand in front of decoration, so a tab there keeps the stars and slashes of its line in the text,
and no other indentation does: `normalize_indented_iff`.
-/

namespace SchemaLex

namespace Text

/-- The lines, each behind the indentation for its number. -/
def indentLines (indent : Nat → List Char) (ls : List (List Char)) : List (List Char) :=
  ls.zipIdx.map fun (l, i) => indent i ++ l

/-- The text with each of its lines behind an indentation of its own. -/
def indented (indent : Nat → List Char) (cs : List Char) : List Char :=
  unlines (indentLines indent (lines cs))

variable {indent : Nat → List Char} {ls : List (List Char)} {l : List Char}

theorem lines_ne_nil (cs : List Char) : lines cs ≠ [] := List.splitOn_ne_nil '\n' cs

theorem mem_indentLines_iff :
    l ∈ indentLines indent ls ↔ ∃ line i, (line, i) ∈ ls.zipIdx ∧ l = indent i ++ line := by
  rw [indentLines, List.mem_map]
  constructor
  · rintro ⟨⟨line, i⟩, hmem, rfl⟩
    exact ⟨line, i, hmem, rfl⟩
  · rintro ⟨line, i, hmem, rfl⟩
    exact ⟨⟨line, i⟩, hmem, rfl⟩

theorem indentLines_ne_nil (h : ls ≠ []) : indentLines indent ls ≠ [] := by
  rw [indentLines, Ne, List.map_eq_nil_iff, List.zipIdx_eq_nil_iff]
  exact h

theorem newline_not_mem_indentLines (hindent : ∀ i, ∀ c ∈ indent i, isIndent c)
    (h : ∀ l ∈ ls, '\n' ∉ l) : ∀ l ∈ indentLines indent ls, '\n' ∉ l := by
  intro l hl
  obtain ⟨line, i, hmem, rfl⟩ := mem_indentLines_iff.mp hl
  rw [List.mem_append, not_or]
  exact ⟨newline_not_mem_of_isIndent (hindent i), h line (List.fst_mem_of_mem_zipIdx hmem)⟩

/-- What a function does not see in front of any line it does not see at all. -/
theorem map_indentLines {α : Type} {f : List Char → α}
    (h : ∀ l i, (l, i) ∈ ls.zipIdx → f (indent i ++ l) = f l) :
    (indentLines indent ls).map f = ls.map f := by
  rw [← congrArg (List.map f) (List.zipIdx_map_fst 0 ls), indentLines, List.map_map, List.map_map]
  exact List.map_congr_left fun p hp => h p.1 p.2 hp

theorem visible_unlines (ls : List (List Char)) :
    visible (unlines ls) = (ls.map visible).sum := by
  induction ls with
  | nil => rfl
  | cons l ls ih =>
    cases ls with
    | nil => simp
    | cons l' ls =>
      have hnewline (cs : List Char) : visible ('\n' :: cs) = visible cs :=
        List.countP_cons_of_neg (by decide)
      rw [unlines_cons (List.cons_ne_nil _ _), visible_append, hnewline, ih]
      rfl

theorem visible_indent_append {indent : List Char} (h : ∀ c ∈ indent, isIndent c)
    (l : List Char) : visible (indent ++ l) = visible l := by
  have hblank : visible indent = 0 :=
    List.countP_eq_zero.mpr fun c hc => by simpa using isBlank_of_isIndent (h c hc)
  rw [visible_append, hblank, Nat.zero_add]

end Text

namespace Doc

variable {everyComment : Bool} {indent l : List Char}

/-! ## One Line -/

theorem trim_indent_append (h : ∀ c ∈ indent, Text.isIndent c) (l : List Char) :
    Text.trim (indent ++ l) = Text.trim l := by
  have hstart : Text.trimStart (indent ++ l) = Text.trimStart l :=
    List.dropWhile_append_of_pos fun c hc => Text.isBlank_of_isIndent (h c hc)
  rw [Text.trim, hstart]
  rfl

theorem dropWhile_space_append (h : ∀ c ∈ indent, Text.isIndent c) (htab : '\t' ∉ indent)
    (l : List Char) : (indent ++ l).dropWhile (· == ' ') = l.dropWhile (· == ' ') := by
  refine List.dropWhile_append_of_pos fun c hc => ?_
  have hindent := h c hc
  simp only [Text.isIndent, Bool.or_eq_true, beq_iff_eq] at hindent ⊢
  exact hindent.resolve_right fun heq => htab (heq ▸ hc)

/-- A tab comes first in an indented line, even behind spaces. -/
theorem isDecorated_of_tab (h : ∀ c ∈ indent, Text.isIndent c) (htab : '\t' ∈ indent)
    (l : List Char) : isDecorated (indent ++ l) = false := by
  induction indent with
  | nil => cases htab
  | cons c cs ih =>
    obtain ⟨hc, hcs⟩ := List.forall_mem_cons.mp h
    simp only [Text.isIndent, Bool.or_eq_true, beq_iff_eq] at hc
    rcases hc with rfl | rfl
    · exact ih hcs ((List.mem_cons.mp htab).resolve_left (by decide))
    · rfl

/-- Indentation is not seen in front of a line, unless a tab stands in front of decoration. -/
theorem cleanLine_indent_append (h : ∀ c ∈ indent, Text.isIndent c)
    (htab : everyComment ∨ (isDecorated l → '\t' ∉ indent)) :
    cleanLine everyComment (indent ++ l) = cleanLine everyComment l := by
  cases everyComment with
  | true =>
    change Text.trim (undecorateAny _) = Text.trim (undecorateAny _)
    rw [undecorateAny_blank_append fun c hc => Text.isBlank_of_isIndent (h c hc)]
  | false =>
    replace htab : isDecorated l → '\t' ∉ indent := htab.resolve_left Bool.false_ne_true
    change Text.trim (undecorate _) = Text.trim (undecorate _)
    by_cases hdecorated : isDecorated l
    · have hdrop := dropWhile_space_append h (htab hdecorated) l
      have hindented : isDecorated (indent ++ l) := by rwa [isDecorated, hdrop]
      rw [undecorate_of_isDecorated hdecorated, undecorate_of_isDecorated hindented, hdrop]
    · have hplain : isDecorated (indent ++ l) = false := by
        by_cases htab' : '\t' ∈ indent
        · exact isDecorated_of_tab h htab' l
        · rw [isDecorated, dropWhile_space_append h htab' l]
          exact eq_false_of_ne_true hdecorated
      rw [undecorate_of_not_isDecorated hplain,
        undecorate_of_not_isDecorated (eq_false_of_ne_true hdecorated), trim_indent_append h]

/-- What decorates a line is no white space. -/
theorem visible_cleanLine_lt (h : isDecorated l) :
    Text.visible (cleanLine false l) < Text.visible l := by
  obtain ⟨margin, heq, hmargin⟩ :
      ∃ margin, l = margin ++ withoutMargin false l ∧ IsMargin false margin :=
    exists_isMargin (.inr h)
  have hpos : 0 < Text.visible margin := by
    cases hmargin with
    | @marked front marks back hfront hne hmarks hback =>
      obtain ⟨c, cs, rfl⟩ := List.exists_cons_of_ne_nil hne
      refine List.countP_pos_iff.mpr ⟨c, by simp, ?_⟩
      rcases hmarks c List.mem_cons_self with rfl | rfl <;> decide
  have hsum := congrArg Text.visible heq
  rw [Text.visible_append] at hsum
  have hclean : Text.visible (cleanLine false l) = Text.visible (withoutMargin false l) :=
    Text.visible_trim _
  omega

theorem visible_cleanLine_of_tab (h : ∀ c ∈ indent, Text.isIndent c) (htab : '\t' ∈ indent)
    (l : List Char) : Text.visible (cleanLine false (indent ++ l)) = Text.visible l := by
  change Text.visible (Text.trim (undecorate _)) = _
  rw [undecorate_of_not_isDecorated (isDecorated_of_tab h htab l), Text.visible_trim,
    Text.visible_indent_append h]

/-! ## All Lines -/

variable {indents : Nat → List Char} {body : List Char}

/-- No character of a line that is left by cleaning is lost where the lines are put together. -/
theorem visible_normalize_unlines {ls : List (List Char)} (hne : ls ≠ [])
    (h : ∀ l ∈ ls, '\n' ∉ l) :
    Text.visible (normalize everyComment (Text.unlines ls)) =
      (ls.map fun l => Text.visible (cleanLine everyComment l)).sum := by
  rw [normalize_unlines hne h, Text.visible_trim, Text.visible_unlines, List.map_map]
  rfl

/-- The lines of the body with their numbers, which the sums below are taken over. -/
theorem visible_normalize_indented (h : ∀ i, ∀ c ∈ indents i, Text.isIndent c) :
    Text.visible (normalize everyComment (Text.indented indents body)) =
      ((Text.lines body).zipIdx.map fun p =>
        Text.visible (cleanLine everyComment (indents p.2 ++ p.1))).sum := by
  rw [Text.indented, visible_normalize_unlines (Text.indentLines_ne_nil (Text.lines_ne_nil body))
    (Text.newline_not_mem_indentLines h fun l hl => Text.newline_not_mem_lines hl),
    Text.indentLines, List.map_map]
  rfl

theorem visible_normalize (body : List Char) :
    Text.visible (normalize everyComment body) =
      ((Text.lines body).zipIdx.map fun p => Text.visible (cleanLine everyComment p.1)).sum := by
  have hsum : Text.visible (normalize everyComment (Text.unlines (Text.lines body))) =
      ((Text.lines body).map fun l => Text.visible (cleanLine everyComment l)).sum :=
    visible_normalize_unlines (Text.lines_ne_nil body) fun l hl => Text.newline_not_mem_lines hl
  rw [Text.unlines_lines] at hsum
  rw [hsum, ← congrArg (List.map _) (List.zipIdx_map_fst 0 (Text.lines body)), List.map_map]
  rfl

/-- Indentation by spaces and tabs in front of the lines of a comment leaves its text as it is
    exactly if every comment is documentation, or no tab comes in front of a line that starts with
    stars or slashes behind its spaces. -/
theorem normalize_indented_iff (h : ∀ i, ∀ c ∈ indents i, Text.isIndent c) :
    normalize everyComment (Text.indented indents body) = normalize everyComment body ↔
      everyComment ∨
        ∀ l i, (l, i) ∈ (Text.lines body).zipIdx → isDecorated l → '\t' ∉ indents i := by
  constructor
  · intro heq
    by_contra hnot
    obtain ⟨hmode, hsome⟩ := not_or.mp hnot
    obtain rfl : everyComment = false := by simpa using hmode
    push Not at hsome
    obtain ⟨l, i, hmem, hdecorated, htab⟩ := hsome
    -- The stars and slashes behind the tab are counted in the indented text and not in the other.
    have hle : ∀ p ∈ (Text.lines body).zipIdx, Text.visible (cleanLine false p.1) ≤
        Text.visible (cleanLine false (indents p.2 ++ p.1)) := by
      rintro ⟨l', i'⟩ -
      by_cases hkept : isDecorated l' → '\t' ∉ indents i'
      · rw [cleanLine_indent_append (h i') (.inr hkept)]
      · push Not at hkept
        rw [visible_cleanLine_of_tab (h i') hkept.2]
        exact Nat.le_of_lt (visible_cleanLine_lt hkept.1)
    have hlt := List.sum_lt_sum _ _ hle ⟨(l, i), hmem, by
      rw [visible_cleanLine_of_tab (h i) htab]
      exact visible_cleanLine_lt hdecorated⟩
    rw [← visible_normalize, ← visible_normalize_indented h, heq] at hlt
    exact Nat.lt_irrefl _ hlt
  · intro htab
    have hmap : (Text.indentLines indents (Text.lines body)).map (cleanLine everyComment) =
        (Text.lines body).map (cleanLine everyComment) :=
      Text.map_indentLines fun l i hmem =>
        cleanLine_indent_append (h i) (htab.imp_right fun hall => hall l i hmem)
    rw [Text.indented, normalize_unlines (Text.indentLines_ne_nil (Text.lines_ne_nil body))
      (Text.newline_not_mem_indentLines h fun l hl => Text.newline_not_mem_lines hl), hmap]
    rfl

/-- A tab in front of a line without decoration, and spaces in front of one with it. -/
theorem normalize_indented_by_tab :
    let indents := fun i => if i = 0 then [' ', ' '] else ['\t', ' ']
    let body := "* a\nb *".toList
    (∀ i, ∀ c ∈ indents i, Text.isIndent c) ∧
      Text.indented indents body = "  * a\n\t b *".toList ∧
      normalize false (Text.indented indents body) = normalize false body := by
  intro indents body
  have hindent : ∀ i, ∀ c ∈ indents i, Text.isIndent c := by
    intro i
    by_cases hi : i = 0 <;> simp [indents, hi, Text.isIndent]
  refine ⟨hindent, by decide +kernel, (normalize_indented_iff hindent).mpr (.inr ?_)⟩
  intro l i hmem hdecorated
  have hfirst : ∀ p ∈ (Text.lines body).zipIdx, isDecorated p.1 → p.2 = 0 := by decide +kernel
  obtain rfl : i = 0 := hfirst (l, i) hmem hdecorated
  decide

/-- A tab in front of a star leaves the star in the text. -/
theorem normalize_indented_ne :
    ¬ ∀ (everyComment : Bool) (indents : Nat → List Char) (body : List Char),
      (∀ i, ∀ c ∈ indents i, Text.isIndent c) →
        normalize everyComment (Text.indented indents body) = normalize everyComment body := by
  intro hall
  have hsame := hall false (fun _ => ['\t']) "* a".toList fun _ =>
    List.forall_mem_singleton.mpr rfl
  exact absurd hsame (by decide +kernel)

end Doc

end SchemaLex
