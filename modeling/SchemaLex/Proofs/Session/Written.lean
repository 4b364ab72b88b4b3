-- SUMMARY: A text that is written as a comment is what a session captures there.
import SchemaLex.Proofs.Doc.Apart
import SchemaLex.Proofs.Doc.Written
import SchemaLex.Proofs.Layout.Join
import SchemaLex.Proofs.Session.CommentLines

/-!
# Written Comments in a Gap

Wherever in a gap a text stands as a comment, a session captures just this text, between what it
captures in front of the comment and what it captures behind: `written_captured`. A block comment
may stand next to anything. Line comments have their lines for themselves, and no further line
comment stands on the line above or below.
-/

namespace SchemaLex.Session

/-- The gap in front of the session has these items, and behind them comes the text. -/
structure Meets (s : Session) (before : List Trivia) (cs : List Char) : Prop where
  ahead : s.reader.skipMark.ahead = before.flatMap Trivia.chars ++ cs
  gap : Trivia.IsGap before cs

variable {s : Session} {before : List Trivia} {cs rest : List Char} {ls : List (List Char)}
  {spaces : Nat → Nat} {indents : Nat → List Char}

theorem Meets.gapItems (h : s.Meets before cs) : s.gapItems = before ++ (Trivia.gap cs).1 := by
  have hchars := Trivia.flatMap_chars_gap cs
  have hgap : Trivia.IsGap (before ++ (Trivia.gap cs).1) (Trivia.gap cs).2 :=
    Trivia.IsGap.append (hchars.symm ▸ h.gap) (Trivia.isGap_gap cs)
  have hahead : s.reader.skipMark.ahead =
      (before ++ (Trivia.gap cs).1).flatMap Trivia.chars ++ (Trivia.gap cs).2 := by
    rw [List.flatMap_append, List.append_assoc, hchars, h.ahead]
  rw [Session.gapItems, hahead, Trivia.gap_append hgap (Trivia.read?_gap cs)]

theorem Meets.gapDocs (h : s.Meets before cs)
    (hcut : s.options.everyComment →
      (Trivia.run (Trivia.gap cs).1).1 = [] ∨ ¬ s.reader.skipMark.LineAbove before) :
    s.gapDocs = Doc.captured s.options.everyComment s.reader.skipMark before ++
      Doc.captured s.options.everyComment (before.foldl Reader.pass s.reader.skipMark)
        (Trivia.gap cs).1 := by
  rw [Session.gapDocs, h.gapItems]
  exact Doc.captured_append h.ahead h.gap hcut

theorem Meets.ahead_foldl_pass (h : s.Meets before cs) :
    (before.foldl Reader.pass s.reader.skipMark).ahead = cs :=
  Reader.ahead_foldl_pass _ _ _ h.ahead

/-- Where nothing in front is taken in, the items in front are passed, and then the first of those
    behind with their documentation. -/
theorem Meets.skipGap_of_passed (h : s.Meets before cs) {passed left : List Trivia}
    {docs : List Doc}
    (hcut : s.options.everyComment →
      (Trivia.run (Trivia.gap cs).1).1 = [] ∨ ¬ s.reader.skipMark.LineAbove before)
    (hitems : (Trivia.gap cs).1 = passed ++ left) (hne : passed ≠ []) {r : Reader}
    (hr : before.foldl Reader.pass s.reader.skipMark = r)
    (hdocs : Doc.captured s.options.everyComment r (Trivia.gap cs).1 =
      docs ++ Doc.captured s.options.everyComment (passed.foldl Reader.pass r) left) :
    s.skipGap = (s.capture (passed.foldl Reader.pass r)
      (Doc.captured s.options.everyComment s.reader.skipMark before ++ docs)).skipGap := by
  have hpassed : (before ++ passed).foldl Reader.pass s.reader.skipMark =
      passed.foldl Reader.pass r := by
    rw [List.foldl_append, hr]
  have hall : s.gapItems = (before ++ passed) ++ left := by
    rw [h.gapItems, hitems, List.append_assoc]
  rw [← hpassed]
  refine (Session.skipGap_of_passed (before ++ passed) _ hall
    (List.append_ne_nil_of_right_ne_nil _ hne) ?_).symm
  rw [h.gapDocs hcut, hr, hdocs, hpassed, List.append_assoc]

theorem skipGap_writtenBlock (h : Doc.IsText ls) (hmark : ∀ l ∈ ls, Trivia.NoClosingMark l)
    (hmeets : s.Meets before (Doc.writtenBlock spaces ls ++ rest)) {r : Reader}
    (hr : before.foldl Reader.pass s.reader.skipMark = r) :
    s.skipGap = (s.capture (r.advance (Doc.writtenBlock spaces ls).length)
      (Doc.captured s.options.everyComment s.reader.skipMark before ++
        [⟨.block, String.ofList (Text.unlines ls), r.line + (ls.length + 1)⟩])).skipGap := by
  have hahead := hr ▸ hmeets.ahead_foldl_pass
  rw [Doc.writtenBlock_eq] at hmeets hahead ⊢
  have hfits : (Trivia.block (Doc.writtenBody spaces ls)).Fits rest :=
    Doc.noClosingMark_writtenBody hmark
  have hgap := Trivia.gap_of_read?_eq_some (Trivia.read?_chars_append hfits)
  have hitems : (Trivia.gap ((Trivia.block (Doc.writtenBody spaces ls)).chars ++ rest)).1 =
      [.block (Doc.writtenBody spaces ls)] ++ (Trivia.gap rest).1 := congrArg Prod.fst hgap
  have hrun : (Trivia.run (Trivia.gap ((Trivia.block (Doc.writtenBody spaces ls)).chars ++
      rest)).1).1 = [] := by
    rw [hitems]
    rfl
  refine hmeets.skipGap_of_passed (fun _ => .inl hrun) hitems (List.cons_ne_nil _ _) hr ?_
  rw [hitems]
  exact Doc.captured_writtenBody h hahead

theorem skipGap_writtenLines (h : Doc.IsText ls) (hevery : s.options.everyComment)
    (hplain : ∀ l ∈ ls, ∀ c ∈ l.head?, c ≠ '*' ∧ c ≠ '/')
    (hindents : ∀ i, ∀ c ∈ indents i, Text.isIndent c)
    (hmeets : s.Meets before (Doc.writtenLines indents ls ++ rest)) {r : Reader}
    (hr : before.foldl Reader.pass s.reader.skipMark = r) (hindent : r.atIndent)
    (habove : ¬ s.reader.skipMark.LineAbove before) (hbelow : Doc.EndsComments rest) :
    s.skipGap = (s.capture (Reader.passLine^[ls.length] r)
      (Doc.captured s.options.everyComment s.reader.skipMark before ++
        [⟨.line, String.ofList (Text.unlines ls), r.line + (ls.length - 1)⟩])).skipGap := by
  have hahead := hr ▸ hmeets.ahead_foldl_pass
  obtain ⟨hne, hpassed, hdocs⟩ :=
    Doc.every_writtenLines h hplain hindents hindent hbelow rfl hahead
  rw [← hpassed] at hdocs ⊢
  refine hmeets.skipGap_of_passed (fun _ => .inr habove) (Trivia.run_append _).symm hne hr ?_
  rw [hevery]
  exact hdocs

/-- A text whose lines have no white space around, and of which the first and the last line are not
    empty, is what a session captures where the text is written as a comment. This holds of a block
    comment with a star in front of each line, if no line closes it, whether or not every comment is
    documentation and wherever in a gap it stands; it ends on the line of its closing mark. And it
    holds where every comment is documentation of line comments that have their lines for
    themselves, if no line starts with a star or a slash and no further such comment stands on the
    line above or below. The comments in front are captured before, and those behind after it. -/
theorem written_captured (s : Session) (h : Doc.IsText ls) :
    let r := before.foldl Reader.pass s.reader.skipMark
    let docs := Doc.captured s.options.everyComment s.reader.skipMark before
    let text := String.ofList (Text.unlines ls)
    ((∀ l ∈ ls, Trivia.NoClosingMark l) → ∀ spaces rest,
      s.Meets before (Doc.writtenBlock spaces ls ++ rest) →
        s.skipGap = (s.capture (r.advance (Doc.writtenBlock spaces ls).length)
          (docs ++ [⟨.block, text, r.line + (ls.length + 1)⟩])).skipGap) ∧
    (s.options.everyComment → (∀ l ∈ ls, ∀ c ∈ l.head?, c ≠ '*' ∧ c ≠ '/') → ∀ indents rest,
      (∀ i, ∀ c ∈ indents i, Text.isIndent c) →
      s.Meets before (Doc.writtenLines indents ls ++ rest) → r.atIndent →
      ¬ s.reader.skipMark.LineAbove before → Doc.EndsComments rest →
        s.skipGap = (s.capture (Reader.passLine^[ls.length] r)
          (docs ++ [⟨.line, text, r.line + (ls.length - 1)⟩])).skipGap) := by
  intro r docs text
  constructor
  · intro hmark spaces rest hmeets
    exact skipGap_writtenBlock h hmark hmeets rfl
  · intro hevery hplain indents rest hindents hmeets hindent habove hbelow
    exact skipGap_writtenLines h hevery hplain hindents hmeets rfl hindent habove hbelow

/-- A block comment below a line comment, in the text of which stars and slashes start lines, and
    line comments behind a trailing one, which does not have its line for itself. -/
theorem written_captured_below_comment :
    let s := ofString ⟨false, false⟩ "// x\n/**\n  * *a\n* \n   * /b\n */ y"
    let t := (ofString ⟨true, false⟩ "a // t\n // one\n\t// \n // two\nx").next.2
    s.skipGap.slot = some ⟨.block, "*a\n\n/b", 6⟩ ∧
      t.skipGap.slot = some ⟨.line, "one\n\ntwo", 4⟩ ∧
      t.skipGap.log = [.captured .line 4, .captured .line 1] ++ t.log := by
  intro s t
  let starred : List (List Char) := [['*', 'a'], [], ['/', 'b']]
  let indents (i : Nat) := if i = 1 then ['\t'] else [' ']
  let plain : List (List Char) := ["one".toList, [], "two".toList]
  have hstarred : Doc.IsText starred := ⟨by decide, by decide, by decide, by decide, by decide⟩
  have hplain : Doc.IsText plain := ⟨by decide, by decide, by decide, by decide, by decide⟩
  have hmark : ∀ l ∈ starred, Trivia.NoClosingMark l := by
    have hsplit : ∀ l ∈ starred, Trivia.splitBlock? l = none := by decide
    exact fun l hl => Trivia.splitBlock?_eq_none_iff.mp (hsplit l hl)
  have hblock : s.Meets [.line [' ', 'x'] true]
      (Doc.writtenBlock (fun i => [2, 0, 3, 1].getD i 0) starred ++ [' ', 'y']) :=
    ⟨by decide +kernel, by simp [Trivia.Fits], trivial⟩
  have hlines : t.Meets [.blank ' ', .line [' ', 't'] true]
      (Doc.writtenLines indents plain ++ ['\n', 'x']) :=
    ⟨by decide +kernel, rfl, by simp [Trivia.Fits], trivial⟩
  have habove : ¬ t.reader.skipMark.LineAbove [.blank ' ', .line [' ', 't'] true] :=
    mt (Reader.lineAbove_concat_iff [.blank ' ']).mp (by decide +kernel)
  have hindents : ∀ i, ∀ c ∈ indents i, Text.isIndent c := by
    intro i
    by_cases hi : i = 1 <;> simp [indents, hi, Text.isIndent]
  have hfirst : ∀ l ∈ plain, ∀ c ∈ l.head?, c ≠ '*' ∧ c ≠ '/' := by simp [plain]
  obtain ⟨hcaptured, -⟩ := written_captured s hstarred
  obtain ⟨-, hcaptured'⟩ := written_captured t hplain
  rw [hcaptured hmark _ _ hblock, hcaptured' (by decide +kernel) hfirst _ _ hindents hlines
    (by decide +kernel) habove (.inr ⟨['x'], rfl, by decide⟩)]
  decide +kernel

end SchemaLex.Session
