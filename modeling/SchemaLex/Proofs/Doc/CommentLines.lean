-- SUMMARY: Which lines a line comment takes in, told by the lines of the text alone.
import Mathlib.Logic.Function.Iterate
import SchemaLex.Proofs.Caret.Comments
import SchemaLex.Text.Lines

/-!
# Lines That Are Comments

Where every comment is documentation a line comment takes in the line comments below it. In the
lines of the text these are its own line and, if nothing but indentation stands in front of it
there, the longest sequence of lines directly below that are a comment behind indentation. The run
of items that the gap has for them has their bodies and ends behind the last of them:
`absorbed_eq_commentLines`.
-/

namespace SchemaLex

namespace Text

/-- The line is a line comment behind indentation. -/
def isCommentLine (l : List Char) : Bool := ['/', '/'].isPrefixOf (l.dropWhile isIndent)

/-- What stands behind the two slashes of such a line. -/
def commentBody (l : List Char) : List Char := (l.dropWhile isIndent).drop 2

end Text

namespace Reader

/-- Moves over the rest of the line and its newline. The end of the text ends a line as well. -/
def passLine (r : Reader) : Reader :=
  { r.leap ((r.ahead.takeWhile (· != '\n')).length + 1) with line := r.line + 1 }

/-- The lines that a line comment in front of the reader takes, the first from the comment on: its
    own, and the comments on the lines directly below it if it has its own line for itself. -/
def commentLines (r : Reader) : List (List Char) :=
  let lines := Text.lines r.ahead
  lines.take 1 ++ if r.atIndent then lines.tail.takeWhile Text.isCommentLine else []

end Reader

/-! ## Single Lines -/

namespace Text

variable {l cs : List Char}

theorem lines_append_newline (h : '\n' ∉ l) (cs : List Char) :
    lines (l ++ '\n' :: cs) = l :: lines cs :=
  List.splitOn_append_cons_self_of_not_mem h cs

theorem lines_of_newline_not_mem (h : '\n' ∉ l) : lines l = [l] := List.splitOn_eq_singleton h

theorem takeWhile_of_newline_not_mem (h : '\n' ∉ l) : l.takeWhile (· != '\n') = l :=
  List.takeWhile_eq_self_iff.mpr fun c hc => by simpa using fun heq : c = '\n' => h (heq ▸ hc)

theorem takeWhile_append_newline (h : '\n' ∉ l) (cs : List Char) :
    (l ++ '\n' :: cs).takeWhile (· != '\n') = l := by
  rw [List.takeWhile_append, takeWhile_of_newline_not_mem h, if_pos rfl]
  simp

/-- A text is one line, or a line with a newline behind it and more text. -/
theorem exists_line (cs : List Char) :
    ∃ l, '\n' ∉ l ∧ (cs = l ∨ ∃ rest, cs = l ++ '\n' :: rest) := by
  have hsplit := List.takeWhile_append_dropWhile (p := (· != '\n')) (l := cs)
  refine ⟨cs.takeWhile (· != '\n'), fun hmem => by simpa using List.mem_takeWhile_imp hmem, ?_⟩
  cases hdrop : cs.dropWhile (· != '\n') with
  | nil => exact .inl (by rw [hdrop, List.append_nil] at hsplit; exact hsplit.symm)
  | cons c rest =>
    have hc : c = '\n' := by
      have := List.head?_dropWhile_not (· != '\n') cs
      simpa [hdrop] using this
    subst hc
    exact .inr ⟨rest, by rw [← hdrop, hsplit]⟩

theorem isCommentLine_iff : isCommentLine l ↔ ['/', '/'] <+: l.dropWhile isIndent :=
  List.isPrefixOf_iff_prefix

/-- Whether the first line is a comment can be seen from the text. -/
theorem takeWhile_isCommentLine_eq_nil (h : ¬ ['/', '/'] <+: cs.dropWhile isIndent) :
    (lines cs).takeWhile isCommentLine = [] := by
  obtain ⟨l, hl, rfl | ⟨rest, rfl⟩⟩ := exists_line cs
  · rw [lines_of_newline_not_mem hl, List.takeWhile_cons_of_neg (mt isCommentLine_iff.mp h)]
  · rw [lines_append_newline hl, List.takeWhile_cons_of_neg]
    intro hcomment
    obtain ⟨tail, htail⟩ := isCommentLine_iff.mp hcomment
    refine h ⟨tail ++ '\n' :: rest, ?_⟩
    rw [List.dropWhile_append, ← htail]
    rfl

theorem dropWhile_indent {indent : List Char} (h : ∀ c ∈ indent, isIndent c) (body : List Char) :
    (indent ++ '/' :: '/' :: body).dropWhile isIndent = '/' :: '/' :: body := by
  rw [List.dropWhile_append_of_pos h]
  rfl

theorem newline_not_mem_commentLine {indent body rest : List Char} {ended : Bool}
    (hindent : ∀ c ∈ indent, isIndent c) (hfits : (Trivia.line body ended).Fits rest) :
    '\n' ∉ indent ++ '/' :: '/' :: body := by
  simp [newline_not_mem_of_isIndent hindent, hfits.newline_not_mem]

/-- The lines of a text that starts with a line comment behind indentation. -/
theorem lines_of_commentLine {indent body rest : List Char} {ended : Bool}
    (hindent : ∀ c ∈ indent, isIndent c) (hfits : (Trivia.line body ended).Fits rest) :
    lines (indent ++ ((Trivia.line body ended).chars ++ rest)) =
      (indent ++ '/' :: '/' :: body) :: if ended then lines rest else [] := by
  have hline := newline_not_mem_commentLine hindent hfits
  cases ended with
  | true =>
    rw [if_pos rfl, ← lines_append_newline hline]
    simp [Trivia.chars]
  | false =>
    obtain ⟨-, rfl⟩ := hfits
    rw [if_neg Bool.false_ne_true, ← lines_of_newline_not_mem hline]
    simp [Trivia.chars]

/-- No line is a comment where the text has ended. -/
theorem takeWhile_isCommentLine_of_fits {body rest : List Char} {ended : Bool}
    (hfits : (Trivia.line body ended).Fits rest) :
    (if ended then lines rest else []).takeWhile isCommentLine =
      (lines rest).takeWhile isCommentLine := by
  cases ended with
  | true => rfl
  | false =>
    obtain ⟨-, rfl⟩ := hfits
    rfl

end Text

/-! ## Passing Lines -/

namespace Reader

variable {r : Reader} {ts us : List Trivia} {indent body rest : List Char} {ended : Bool}

theorem commentLines_ne_nil (r : Reader) : r.commentLines ≠ [] := by
  have hlines : (Text.lines r.ahead).take 1 ≠ [] := by
    rw [Ne, List.take_eq_nil_iff, not_or]
    exact ⟨Nat.one_ne_zero, List.splitOn_ne_nil '\n' r.ahead⟩
  exact List.append_ne_nil_of_left_ne_nil hlines _

theorem source_passLine (r : Reader) : r.passLine.source = r.source := r.source_leap _

theorem passLine_of_newline_not_mem (h : '\n' ∉ r.ahead) :
    r.passLine = ⟨r.ahead.reverse ++ r.behind, [], r.line + 1⟩ := by
  rw [passLine, Text.takeWhile_of_newline_not_mem h, leap, List.take_of_length_le (Nat.le_succ _),
    List.drop_eq_nil_of_le (Nat.le_succ _)]

theorem passLine_of_newline {l : List Char} (hl : '\n' ∉ l) (h : r.ahead = l ++ '\n' :: rest) :
    r.passLine = ⟨'\n' :: l.reverse ++ r.behind, rest, r.line + 1⟩ := by
  have hsplit : l ++ '\n' :: rest = (l ++ ['\n']) ++ rest := by simp
  have hwidth : (r.ahead.takeWhile (· != '\n')).length + 1 = (l ++ ['\n']).length := by
    rw [h, Text.takeWhile_append_newline hl]
    simp
  rw [passLine, hwidth, leap, h, hsplit, List.take_left, List.drop_left]
  simp

/-- In front of something, a reader that has passed a line is at the start of the next one. -/
theorem head?_behind_passLine (h : r.passLine.ahead ≠ []) :
    r.passLine.behind.head? = some '\n' := by
  obtain ⟨l, hl, hahead | ⟨rest, hahead⟩⟩ := Text.exists_line r.ahead
  · rw [passLine_of_newline_not_mem (hahead ▸ hl)] at h
    exact absurd rfl h
  · rw [passLine_of_newline hl hahead]
    rfl

theorem source_iterate_passLine (n : Nat) (r : Reader) : (passLine^[n] r).source = r.source := by
  induction n with
  | zero => rfl
  | succ n ih => rw [Function.iterate_succ_apply', source_passLine, ih]

theorem line_iterate_passLine (n : Nat) (r : Reader) : (passLine^[n] r).line = r.line + n := by
  induction n with
  | zero => rfl
  | succ n ih =>
    rw [Function.iterate_succ_apply']
    exact congrArg (· + 1) ih

/-- As many lines are left as have not been passed. -/
theorem ahead_iterate_passLine (n : Nat) (r : Reader) :
    (passLine^[n] r).ahead = Text.unlines ((Text.lines r.ahead).drop n) := by
  induction n generalizing r with
  | zero => exact (Text.unlines_lines r.ahead).symm
  | succ n ih =>
    rw [Function.iterate_succ_apply, ih]
    obtain ⟨l, hl, hahead | ⟨rest, hahead⟩⟩ := Text.exists_line r.ahead
    · rw [passLine_of_newline_not_mem (hahead ▸ hl), Text.lines_nil, hahead,
        Text.lines_of_newline_not_mem hl]
      cases n <;> simp
    · rw [passLine_of_newline hl hahead, hahead, Text.lines_append_newline hl, List.drop_succ_cons]

/-- A line comment behind indentation is a line. -/
theorem foldl_pass_commentLine (hindent : ∀ c ∈ indent, Text.isIndent c)
    (h : r.ahead = indent ++ ((Trivia.line body ended).chars ++ rest))
    (hfits : (Trivia.line body ended).Fits rest) :
    (indent.map Trivia.blank ++ [Trivia.line body ended]).foldl pass r = r.passLine := by
  have hline := Text.newline_not_mem_commentLine hindent hfits
  rw [List.foldl_append, List.foldl_cons, List.foldl_nil, foldl_pass_blanks]
  -- Where the indentation ends, the comment has its slashes in front of it.
  have hopened : (r.advance indent.length).ahead = (Trivia.line body ended).chars ++ rest :=
    ahead_advance_of_eq_append h
  have hbehind : ((r.advance indent.length).pass (.line body ended)).behind =
      (Trivia.line body ended).chars.reverse ++ (indent.reverse ++ r.behind) := by
    rw [behind_pass hopened, behind_advance, h, List.take_left]
  have hcount : ((r.advance indent.length).pass (.line body ended)).line = r.line + 1 := by
    rw [line_pass_line hfits.newline_not_mem hopened, line_advance_of_newline_not_mem h
      (Text.newline_not_mem_of_isIndent hindent)]
  have hpassed : (r.advance indent.length).pass (.line body ended) =
      ⟨(Trivia.line body ended).chars.reverse ++ (indent.reverse ++ r.behind), rest,
        r.line + 1⟩ := by
    rw [← hbehind, ← hcount, ← ahead_pass_of_eq_append hopened]
  rw [hpassed]
  cases ended with
  | true =>
    rw [passLine_of_newline hline (by simpa [Trivia.chars] using h)]
    simp [Trivia.chars]
  | false =>
    obtain ⟨-, rfl⟩ := hfits
    have hahead : r.ahead = indent ++ '/' :: '/' :: body := by simpa [Trivia.chars] using h
    rw [passLine_of_newline_not_mem (hahead ▸ hline), hahead]
    simp [Trivia.chars]

/-- The run of the gap in front of a reader at the start of a line has the comments of the lines
    directly below, and passing it is passing these lines. -/
theorem run_eq_commentLines (h : r.ahead = ts.flatMap Trivia.chars ++ rest)
    (hgap : Trivia.IsGap ts rest) (hend : Trivia.read? rest = none) :
    Trivia.lineBodies (Trivia.run ts).1 =
        ((Text.lines r.ahead).takeWhile Text.isCommentLine).map Text.commentBody ∧
      (Trivia.run ts).1.foldl pass r =
        passLine^[((Text.lines r.ahead).takeWhile Text.isCommentLine).length] r := by
  induction hlength : ts.length using Nat.strong_induction_on generalizing ts r with
  | _ n ih =>
  rcases hgap.run_cases hend with ⟨hnil, hno⟩ | ⟨indent, body, ended, us, hindent, rfl, hrun⟩
  · rw [Text.takeWhile_isCommentLine_eq_nil (h ▸ hno), hnil]
    exact ⟨rfl, rfl⟩
  · obtain ⟨hfits, hbelow⟩ : Trivia.IsGap (.line body ended :: us) rest := hgap.of_append
    simp only [List.flatMap_append, Trivia.flatMap_chars_blanks, List.flatMap_cons,
      List.append_assoc] at h
    have hdrop := Text.dropWhile_indent hindent body
    have hcomment : Text.isCommentLine (indent ++ '/' :: '/' :: body) :=
      Text.isCommentLine_iff.mpr ⟨body, hdrop.symm⟩
    have hbody : Text.commentBody (indent ++ '/' :: '/' :: body) = body := by
      rw [Text.commentBody, hdrop]
      rfl
    have hpass := foldl_pass_commentLine hindent h hfits
    have hahead : r.passLine.ahead = us.flatMap Trivia.chars ++ rest := by
      rw [← hpass]
      exact ahead_foldl_pass _ _ _ (by simp [h, Trivia.flatMap_chars_blanks])
    have hlines : (Text.lines r.ahead).takeWhile Text.isCommentLine =
        (indent ++ '/' :: '/' :: body) ::
          (Text.lines r.passLine.ahead).takeWhile Text.isCommentLine := by
      rw [h, Text.lines_of_commentLine hindent hfits, List.takeWhile_cons_of_pos hcomment,
        Text.takeWhile_isCommentLine_of_fits hfits, hahead]
    have hshorter : us.length < n := by
      rw [← hlength, List.length_append, List.length_cons]
      omega
    obtain ⟨hbodies, hlater⟩ := ih us.length hshorter hahead hbelow rfl
    rw [hlines, hrun, List.map_cons, hbody, ← hbodies, List.length_cons,
      Function.iterate_succ_apply, ← hlater, ← hpass]
    constructor
    · rw [Trivia.lineBodies_append, Trivia.lineBodies_blanks]
      rfl
    · simp

/-- A line comment in front of a reader takes the items of its lines. -/
theorem absorbed_eq_commentLines
    (h : r.ahead = (Trivia.line body ended).chars ++ (us.flatMap Trivia.chars ++ rest))
    (hgap : Trivia.IsGap (.line body ended :: us) rest) (hend : Trivia.read? rest = none) :
    body :: Trivia.lineBodies (Doc.absorbed r us).1 = r.commentLines.map Text.commentBody ∧
      (Doc.absorbed r us).1.foldl pass (r.pass (.line body ended)) =
        passLine^[r.commentLines.length] r := by
  obtain ⟨hfits, hbelow⟩ := hgap
  have hpass : r.pass (.line body ended) = r.passLine :=
    foldl_pass_commentLine (List.forall_mem_nil _) h hfits
  have hahead : r.passLine.ahead = us.flatMap Trivia.chars ++ rest := by
    rw [← hpass]
    exact ahead_pass_of_eq_append h
  have hlines := Text.lines_of_commentLine (List.forall_mem_nil _) hfits
  rw [List.nil_append, ← h, List.nil_append] at hlines
  have htaken : r.commentLines = ('/' :: '/' :: body) ::
      if r.atIndent then (Text.lines r.passLine.ahead).takeWhile Text.isCommentLine else [] := by
    simp only [commentLines, hlines, List.take_succ_cons, List.take_zero, List.tail_cons,
      Text.takeWhile_isCommentLine_of_fits hfits, hahead]
    rfl
  obtain ⟨hbodies, hlater⟩ := run_eq_commentLines hahead hbelow hend
  rw [htaken, hpass, Doc.absorbed]
  cases r.atIndent with
  | true => exact ⟨congrArg (body :: ·) hbodies, hlater⟩
  | false => exact ⟨rfl, rfl⟩

end Reader

end SchemaLex
