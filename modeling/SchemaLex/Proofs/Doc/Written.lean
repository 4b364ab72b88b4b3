-- SUMMARY: Texts written as comments, and the items that such a comment is.
import SchemaLex.Proofs.Doc.CommentLines
import SchemaLex.Proofs.Doc.Indented
import SchemaLex.Proofs.Trivia.Returns

/-!
# Written Comments

A text can be written as a block comment, with a star in front of each of its lines, or as line
comments on consecutive lines. Cleaning takes off what was put in front of a line and nothing that
belongs to it, even where the line starts with a star or a slash of its own, and the first and the
last line of the block comment leave no trace. So either comment has the text that was written:
`captured_writtenBody` and `every_writtenLines`.
-/

namespace SchemaLex

namespace Text

variable {ls : List (List Char)} {l cs : List Char}

theorem unlines_cons_append (cs l : List Char) (ls : List (List Char)) :
    unlines ((cs ++ l) :: ls) = cs ++ unlines (l :: ls) := by
  cases ls with
  | nil => simp
  | cons l' ls =>
    rw [unlines_cons (List.cons_ne_nil _ _), unlines_cons (List.cons_ne_nil _ _) l,
      List.append_assoc]

theorem unlines_append_concat (ls : List (List Char)) (l cs : List Char) :
    unlines (ls ++ [l ++ cs]) = unlines (ls ++ [l]) ++ cs := by
  by_cases hne : ls = []
  · simp [hne]
  · rw [unlines_append hne (by simp), unlines_append hne (by simp)]
    simp

theorem indentLines_concat (indents : Nat → List Char) (ls : List (List Char)) (l : List Char) :
    indentLines indents (ls ++ [l]) = indentLines indents ls ++ [indents ls.length ++ l] := by
  simp [indentLines, List.zipIdx_append]

theorem newline_not_mem_map_append {mark : List Char} (hmark : '\n' ∉ mark)
    (h : ∀ l ∈ ls, '\n' ∉ l) : ∀ l ∈ ls.map (mark ++ ·), '\n' ∉ l := by
  intro l hl
  obtain ⟨line, hline, rfl⟩ := List.mem_map.mp hl
  rw [List.mem_append, not_or]
  exact ⟨hmark, h line hline⟩

theorem lines_unlines_append_newline (hne : ls ≠ []) (h : ∀ l ∈ ls, '\n' ∉ l) (cs : List Char) :
    lines (unlines ls ++ '\n' :: cs) = ls ++ lines cs := by
  have hall : ∀ l ∈ ls ++ lines cs, '\n' ∉ l :=
    List.forall_mem_append.mpr ⟨h, fun l hl => newline_not_mem_lines hl⟩
  rw [← lines_unlines (List.append_ne_nil_of_left_ne_nil hne _) hall,
    unlines_append hne (lines_ne_nil cs), unlines_lines]

/-- There is a newline between each two lines and no other. -/
theorem count_newline_unlines (hne : ls ≠ []) (h : ∀ l ∈ ls, '\n' ∉ l) :
    (unlines ls).count '\n' + 1 = ls.length := by
  induction ls with
  | nil => exact absurd rfl hne
  | cons l ls ih =>
    obtain ⟨hl, hls⟩ := List.forall_mem_cons.mp h
    by_cases hnil : ls = []
    · simp [hnil, List.count_eq_zero.mpr hl]
    · rw [unlines_cons hnil, List.count_append, List.count_eq_zero.mpr hl, List.count_cons_self,
        List.length_cons, ← ih hnil hls]
      omega

end Text

namespace Trivia

variable {l cs : List Char} {ls : List (List Char)} {c : Char}

theorem NoClosingMark.cons (hc : c ≠ '*') (h : NoClosingMark cs) : NoClosingMark (c :: cs) :=
  noClosingMark_cons_iff.mpr ⟨fun hmark => hc hmark.1, h⟩

/-- A newline is no part of the mark. -/
theorem NoClosingMark.append_newline (hl : NoClosingMark l) (h : NoClosingMark cs) :
    NoClosingMark (l ++ '\n' :: cs) := by
  induction l with
  | nil => exact h.cons (by decide)
  | cons c l ih =>
    obtain ⟨hfront, hbelow⟩ := noClosingMark_cons_iff.mp hl
    refine noClosingMark_cons_iff.mpr ⟨?_, ih hbelow⟩
    cases l with
    | nil => simp
    | cons d ds => exact hfront

theorem noClosingMark_unlines (h : ∀ l ∈ ls, NoClosingMark l) :
    NoClosingMark (Text.unlines ls) := by
  induction ls with
  | nil => simp [NoClosingMark]
  | cons l ls ih =>
    obtain ⟨hl, hls⟩ := List.forall_mem_cons.mp h
    by_cases hnil : ls = []
    · rwa [hnil, Text.unlines_singleton]
    · rw [Text.unlines_cons hnil]
      exact hl.append_newline (ih hls)

theorem NoClosingMark.spaces_append (h : NoClosingMark cs) (n : Nat) :
    NoClosingMark (List.replicate n ' ' ++ cs) := by
  induction n with
  | zero => exact h
  | succ n ih => exact ih.cons (by decide)

end Trivia

namespace Doc

/-- The lines of a text as a comment can have it: no white space around a line, and the first and
    the last line are not empty. -/
structure IsText (ls : List (List Char)) : Prop where
  ne_nil : ls ≠ []
  newline : ∀ l ∈ ls, '\n' ∉ l
  trim : ∀ l ∈ ls, Text.trim l = l
  first : ls.head? ≠ some []
  last : ls.getLast? ≠ some []

/-- The text as a block comment, each line behind spaces of its own, a star and a space. -/
def writtenBlock (spaces : Nat → Nat) (ls : List (List Char)) : List Char :=
  Text.unlines (['/', '*', '*'] :: Text.indentLines (fun i => List.replicate (spaces i) ' ')
    (ls.map (['*', ' '] ++ ·) ++ [['*', '/']]))

/-- The lines behind two slashes and a space, and behind an indentation of their own. -/
def slashed (indents : Nat → List Char) (ls : List (List Char)) : List (List Char) :=
  Text.indentLines indents (ls.map (['/', '/', ' '] ++ ·))

/-- The text as line comments on consecutive lines. -/
def writtenLines (indents : Nat → List Char) (ls : List (List Char)) : List Char :=
  Text.unlines (slashed indents ls)

/-- The lines of the block comment below the one that opens it, without the closing mark. -/
def bodyLines (spaces : Nat → Nat) (ls : List (List Char)) : List (List Char) :=
  Text.indentLines (fun i => List.replicate (spaces i) ' ') (ls.map (['*', ' '] ++ ·) ++ [[]])

variable {everyComment : Bool} {spaces : Nat → Nat} {indents : Nat → List Char}
  {ls : List (List Char)} {l : List Char}

/-! ## One Line -/

theorem dropWhile_of_trim {p : Char → Bool} (hp : ∀ c, p c → Text.isBlank c)
    (h : Text.trim l = l) : l.dropWhile p = l := by
  cases l with
  | nil => rfl
  | cons c cs =>
    have htrim : Text.IsTrim (c :: cs) := h ▸ Text.isTrim_trim _
    have hc := Text.not_isBlank_of_trimStart htrim.front
    exact List.dropWhile_cons_of_neg fun hpc => by simp [hp c hpc] at hc

/-- One star goes and the space behind it, and what follows stays. -/
theorem cleanLine_star (h : Text.trim l = l) : cleanLine everyComment ('*' :: ' ' :: l) = l := by
  cases everyComment with
  | true =>
    change Text.trim (' ' :: l) = l
    rw [Text.trim_cons_of_isBlank (by decide), h]
  | false =>
    change Text.trim (l.dropWhile (· == ' ')) = l
    rw [dropWhile_of_trim (by simp +contextual [Text.isBlank]) h, h]

/-- Behind two slashes the space goes, and no more unless the line is decorated itself. -/
theorem cleanLine_space (h : Text.trim l = l) (hplain : ∀ c ∈ l.head?, c ≠ '*' ∧ c ≠ '/') :
    cleanLine true (' ' :: l) = l := by
  have hblank : ∀ c ∈ [' '], Text.isBlank c := List.forall_mem_singleton.mpr rfl
  have hspace : undecorateAny (' ' :: l) = undecorateAny l := undecorateAny_blank_append hblank l
  have hstart : Text.trimStart l = l := dropWhile_of_trim (fun _ hc => hc) h
  have hnone : undecorateAny l = l := by
    cases l with
    | nil => rfl
    | cons c cs =>
      obtain ⟨hstar, hslash⟩ := hplain c rfl
      simp [undecorateAny, hstart, hstar, hslash]
  change Text.trim (undecorateAny (' ' :: l)) = l
  rw [hspace, hnone, h]

/-! ## All Lines -/

/-- Lines that are cleaned to those of a text, with empty ones around, are a comment that has the
    text. -/
theorem normalize_of_map_cleanLine (h : IsText ls) {lines : List (List Char)} (hne : lines ≠ [])
    (hnewline : ∀ l ∈ lines, '\n' ∉ l) (above below : Nat)
    (hclean : lines.map (cleanLine everyComment) =
      List.replicate above [] ++ (ls ++ List.replicate below [])) :
    normalize everyComment (Text.unlines lines) = Text.unlines ls := by
  rw [normalize_eq_unlines, Text.lines_unlines hne hnewline, hclean,
    Text.trimLines_append h.first h.last]

/-! ## Block Comments -/

theorem isIndent_of_mem_spaces {n : Nat} {c : Char} (h : c ∈ List.replicate n ' ') :
    Text.isIndent c := by
  rw [List.eq_of_mem_replicate h]
  rfl

theorem length_bodyLines (spaces : Nat → Nat) (ls : List (List Char)) :
    (bodyLines spaces ls).length = ls.length + 1 := by
  simp [bodyLines, Text.indentLines]

theorem newline_not_mem_bodyLines (h : ∀ l ∈ ls, '\n' ∉ l) :
    ∀ l ∈ bodyLines spaces ls, '\n' ∉ l := by
  have hlines := Text.newline_not_mem_map_append (by decide : '\n' ∉ ['*', ' ']) h
  exact Text.newline_not_mem_indentLines (fun i c => isIndent_of_mem_spaces)
    (List.forall_mem_append.mpr ⟨hlines, List.forall_mem_singleton.mpr List.not_mem_nil⟩)

theorem map_cleanLine_bodyLines (h : ∀ l ∈ ls, Text.trim l = l) :
    (bodyLines spaces ls).map (cleanLine everyComment) = ls ++ [[]] := by
  have hspaces (i : Nat) : '\t' ∉ List.replicate (spaces i) ' ' := fun htab =>
    absurd (List.eq_of_mem_replicate htab) (by decide)
  have hlines : (ls.map (['*', ' '] ++ ·)).map (cleanLine everyComment) = ls := by
    rw [List.map_map]
    exact (List.map_congr_left fun l hl => cleanLine_star (h l hl)).trans (List.map_id ls)
  rw [bodyLines, Text.map_indentLines fun l i _ =>
    cleanLine_indent_append (fun c => isIndent_of_mem_spaces) (.inr fun _ => hspaces i),
    List.map_append, hlines]
  cases everyComment <;> rfl

/-- The line with the opening mark leaves no trace, whether the marker is part of it or not. -/
theorem normalize_bodyLines (h : IsText ls) {opening : List Char} (hnewline : '\n' ∉ opening)
    (hclean : cleanLine everyComment opening = []) :
    normalize everyComment (Text.unlines (opening :: bodyLines spaces ls)) = Text.unlines ls := by
  refine normalize_of_map_cleanLine h (List.cons_ne_nil _ _)
    (List.forall_mem_cons.mpr ⟨hnewline, newline_not_mem_bodyLines h.newline⟩) 1 1 ?_
  rw [List.map_cons, hclean, map_cleanLine_bodyLines h.trim]
  rfl

theorem noClosingMark_bodyLines (h : ∀ l ∈ ls, Trivia.NoClosingMark l) :
    ∀ l ∈ bodyLines spaces ls, Trivia.NoClosingMark l := by
  intro l hl
  obtain ⟨line, i, hmem, rfl⟩ := Text.mem_indentLines_iff.mp hl
  refine Trivia.NoClosingMark.spaces_append ?_ _
  rcases List.mem_append.mp (List.fst_mem_of_mem_zipIdx hmem) with hline | hline
  · obtain ⟨text, htext, rfl⟩ := List.mem_map.mp hline
    exact Trivia.noClosingMark_cons_iff.mpr ⟨by simp, (h text htext).cons (by decide)⟩
  · obtain rfl := List.mem_singleton.mp hline
    simp [Trivia.NoClosingMark]

/-- The body of the block comment, with the marker in front. -/
def writtenBody (spaces : Nat → Nat) (ls : List (List Char)) : List Char :=
  Text.unlines (['*'] :: bodyLines spaces ls)

theorem writtenBlock_eq (spaces : Nat → Nat) (ls : List (List Char)) :
    writtenBlock spaces ls = (Trivia.block (writtenBody spaces ls)).chars := by
  let indents (i : Nat) := List.replicate (spaces i) ' '
  let starred := Text.indentLines indents (ls.map (['*', ' '] ++ ·))
  let last := indents (ls.map (['*', ' '] ++ ·)).length
  have hbody : bodyLines spaces ls = starred ++ [last] := by
    rw [bodyLines, Text.indentLines_concat, List.append_nil]
  calc writtenBlock spaces ls
      = Text.unlines ((['/', '*', '*'] :: starred) ++ [last ++ ['*', '/']]) := by
        rw [writtenBlock, Text.indentLines_concat]
        rfl
    _ = Text.unlines (['/', '*', '*'] :: (starred ++ [last])) ++ ['*', '/'] :=
        Text.unlines_append_concat _ _ _
    _ = ['/', '*'] ++ Text.unlines (['*'] :: (starred ++ [last])) ++ ['*', '/'] :=
        congrArg (· ++ ['*', '/']) (Text.unlines_cons_append ['/', '*'] ['*'] _)
    _ = (Trivia.block (writtenBody spaces ls)).chars := by
        rw [writtenBody, hbody]
        rfl

theorem noClosingMark_writtenBody (h : ∀ l ∈ ls, Trivia.NoClosingMark l) :
    Trivia.NoClosingMark (writtenBody spaces ls) :=
  Trivia.noClosingMark_unlines
    (List.forall_mem_cons.mpr ⟨Trivia.splitBlock?_eq_none_iff.mp rfl, noClosingMark_bodyLines h⟩)

theorem line_pass_writtenBody {r : Reader} {rest : List Char} (h : ∀ l ∈ ls, '\n' ∉ l)
    (hahead : r.ahead = (Trivia.block (writtenBody spaces ls)).chars ++ rest) :
    (r.pass (.block (writtenBody spaces ls))).line = r.line + (ls.length + 1) := by
  have hcount := Text.count_newline_unlines (List.cons_ne_nil ['*'] (bodyLines spaces ls))
    (List.forall_mem_cons.mpr ⟨by decide, newline_not_mem_bodyLines h⟩)
  rw [List.length_cons, length_bodyLines] at hcount
  rw [Reader.line_pass hahead]
  simp [Trivia.chars, Trivia.impliedLineEnds, writtenBody]
  omega

/-- In front of a written block comment, and whatever else, a reader captures the text, which ends
    as many lines further down as the comment has newlines. -/
theorem captured_writtenBody {r : Reader} {rest : List Char} {us : List Trivia} (h : IsText ls)
    (hahead : r.ahead = (Trivia.block (writtenBody spaces ls)).chars ++ rest) :
    captured everyComment r (.block (writtenBody spaces ls) :: us) =
      ⟨.block, String.ofList (Text.unlines ls), r.line + (ls.length + 1)⟩ ::
        captured everyComment (r.pass (.block (writtenBody spaces ls))) us := by
  have hline := line_pass_writtenBody h.newline hahead
  cases everyComment with
  | true =>
    have htext : normalize true (writtenBody spaces ls) = Text.unlines ls :=
      normalize_bodyLines h (by decide) rfl
    change every r _ = _ :: every _ us
    rw [every, ← hline, ← htext]
  | false =>
    have htext : normalize false (Text.unlines ([] :: bodyLines spaces ls)) = Text.unlines ls :=
      normalize_bodyLines h (by decide) rfl
    have hbody : writtenBody spaces ls = '*' :: Text.unlines ([] :: bodyLines spaces ls) :=
      Text.unlines_cons_append ['*'] [] _
    change marked r _ = _ :: marked _ us
    rw [marked, ← hline, hbody, ← htext]
    rfl

/-! ## Line Comments -/

/-- No line comment goes on here: the text ends, or the line does and the next one is no line
    comment behind indentation. -/
def EndsComments (rest : List Char) : Prop :=
  rest = [] ∨ ∃ below, rest = '\n' :: below ∧ ¬ ['/', '/'] <+: below.dropWhile Text.isIndent

theorem slashed_ne_nil (indents : Nat → List Char) (h : ls ≠ []) : slashed indents ls ≠ [] :=
  Text.indentLines_ne_nil (by simpa using h)

theorem newline_not_mem_slashed (hindents : ∀ i, ∀ c ∈ indents i, Text.isIndent c)
    (h : ∀ l ∈ ls, '\n' ∉ l) : ∀ l ∈ slashed indents ls, '\n' ∉ l :=
  Text.newline_not_mem_indentLines hindents
    (Text.newline_not_mem_map_append (by decide : '\n' ∉ ['/', '/', ' ']) h)

theorem isCommentLine_of_mem_slashed (hindents : ∀ i, ∀ c ∈ indents i, Text.isIndent c)
    (ls : List (List Char)) : ∀ l ∈ slashed indents ls, Text.isCommentLine l := by
  intro l hl
  obtain ⟨line, i, hmem, rfl⟩ := Text.mem_indentLines_iff.mp hl
  obtain ⟨text, -, rfl⟩ := List.mem_map.mp (List.fst_mem_of_mem_zipIdx hmem)
  exact Text.isCommentLine_iff.mpr ⟨' ' :: text, (Text.dropWhile_indent (hindents i) _).symm⟩

theorem map_commentBody_slashed (hindents : ∀ i, ∀ c ∈ indents i, Text.isIndent c)
    (ls : List (List Char)) : (slashed indents ls).map Text.commentBody = ls.map (' ' :: ·) := by
  rw [slashed, Text.map_indentLines, List.map_map]
  · rfl
  · intro l i hmem
    obtain ⟨text, -, rfl⟩ := List.mem_map.mp (List.fst_mem_of_mem_zipIdx hmem)
    rw [Text.commentBody, Text.commentBody]
    change ((indents i ++ '/' :: '/' :: ' ' :: text).dropWhile _).drop 2 = _
    rw [Text.dropWhile_indent (hindents i)]
    rfl

/-- The lines that are comments from here on are those that are written. -/
theorem takeWhile_isCommentLine_writtenLines (h : IsText ls)
    (hindents : ∀ i, ∀ c ∈ indents i, Text.isIndent c) {rest : List Char}
    (hrest : EndsComments rest) :
    (Text.lines (writtenLines indents ls ++ rest)).takeWhile Text.isCommentLine =
      slashed indents ls := by
  have hne := slashed_ne_nil indents h.ne_nil
  have hnewline := newline_not_mem_slashed hindents h.newline
  have hcomments := isCommentLine_of_mem_slashed hindents ls
  rcases hrest with rfl | ⟨below, rfl, hbelow⟩
  · rw [List.append_nil, writtenLines, Text.lines_unlines hne hnewline,
      List.takeWhile_eq_self_iff.mpr hcomments]
  · rw [writtenLines, Text.lines_unlines_append_newline hne hnewline,
      List.takeWhile_append_of_pos hcomments, Text.takeWhile_isCommentLine_eq_nil hbelow,
      List.append_nil]

theorem normalize_slashed (h : IsText ls)
    (hplain : ∀ l ∈ ls, ∀ c ∈ l.head?, c ≠ '*' ∧ c ≠ '/') :
    normalize true (Text.unlines (ls.map (' ' :: ·))) = Text.unlines ls := by
  have hclean : (ls.map (' ' :: ·)).map (cleanLine true) = ls := by
    rw [List.map_map]
    exact (List.map_congr_left fun l hl => cleanLine_space (h.trim l hl) (hplain l hl)).trans
      (List.map_id ls)
  have hnewline := Text.newline_not_mem_map_append (by decide : '\n' ∉ [' ']) h.newline
  refine normalize_of_map_cleanLine h (by simpa using h.ne_nil) hnewline 0 0 ?_
  rw [List.replicate_zero, List.nil_append, List.append_nil]
  exact hclean

/-- At the start of its line, in front of the written line comments, a reader captures the text once
    and comes to the end of their lines. -/
theorem every_writtenLines {r : Reader} {cs rest : List Char} (h : IsText ls)
    (hplain : ∀ l ∈ ls, ∀ c ∈ l.head?, c ≠ '*' ∧ c ≠ '/')
    (hindents : ∀ i, ∀ c ∈ indents i, Text.isIndent c) (hindent : r.atIndent)
    (hrest : EndsComments rest) (hcs : cs = writtenLines indents ls ++ rest)
    (hahead : r.ahead = cs) :
    let run := Trivia.run (Trivia.gap cs).1
    run.1 ≠ [] ∧ run.1.foldl Reader.pass r = Reader.passLine^[ls.length] r ∧
      every r (Trivia.gap cs).1 =
        ⟨.line, String.ofList (Text.unlines ls), r.line + (ls.length - 1)⟩ ::
          every (Reader.passLine^[ls.length] r) run.2 := by
  have hitems : r.ahead = (Trivia.gap cs).1.flatMap Trivia.chars ++ (Trivia.gap cs).2 := by
    rw [Trivia.flatMap_chars_gap, hahead]
  obtain ⟨hbodies, hpassed⟩ :=
    Reader.run_eq_commentLines hitems (Trivia.isGap_gap cs) (Trivia.read?_gap cs)
  have hlength : (slashed indents ls).length = ls.length := by simp [slashed, Text.indentLines]
  rw [hahead, hcs, takeWhile_isCommentLine_writtenLines h hindents hrest, ← hcs] at hbodies hpassed
  rw [map_commentBody_slashed hindents] at hbodies
  rw [hlength] at hpassed
  have hrun : (Trivia.run (Trivia.gap cs).1).1 ≠ [] := by
    intro hnil
    rw [hnil] at hbodies
    exact h.ne_nil (List.map_eq_nil_iff.mp hbodies.symm)
  refine ⟨hrun, hpassed, ?_⟩
  rw [every_of_run hindent hitems hrun, hbodies, hpassed, normalize_slashed h hplain,
    List.length_map]

end Doc

end SchemaLex
