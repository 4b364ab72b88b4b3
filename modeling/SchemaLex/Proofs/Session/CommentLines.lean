-- SUMMARY: A line comment that a session meets is captured once, with all the lines that it takes.
import Mathlib.Logic.Relation
import SchemaLex.Proofs.Caret.Gap
import SchemaLex.Proofs.Doc.CommentLines
import SchemaLex.Proofs.Doc.Lines
import SchemaLex.Proofs.Session.OnCaret

/-!
# Line Comments of Several Lines

Where every comment is documentation, a session skips a gap turn by turn, each passing a white space
character, a block comment or the lines that a line comment takes. These lines make one comment. Its
text has their cleaned bodies, without the empty ones around, and it ends on the last of them; the
session goes on behind them: `lineComments_captured`.
-/

namespace SchemaLex.Session

variable {s t : Session} {us left : List Trivia} {body : List Char}

/-- The session with its reader moved on and documentation captured, the last of which takes the
    slot. -/
def capture (s : Session) (reader : Reader) (docs : List Doc) : Session :=
  { s with
    reader, slot := docs.getLast?.or s.slot
    log := (docs.map fun d => Event.captured d.kind d.line).reverse ++ s.log }

/-- The documentation that a block comment in front of the session is. -/
def docOfBlock (s : Session) (body : List Char) : Doc :=
  ⟨.block, String.ofList (Doc.normalize true body), (s.reader.pass (.block body)).line⟩

/-- The documentation that a line comment in front of the session is, with the lines that it
    takes. -/
def docOfLines (s : Session) : Doc :=
  let taken := s.reader.commentLines
  ⟨.line, String.ofList (Doc.normalize true (Text.unlines (taken.map Text.commentBody))),
    s.line + (taken.length - 1)⟩

/-- The session behind these lines, where the comment is captured. -/
def captureLines (s : Session) : Session :=
  s.capture (Reader.passLine^[s.reader.commentLines.length] s.reader) [s.docOfLines]

/-- One turn in a gap where every comment is documentation. -/
inductive Turn : Session → Session → Prop where
  | blank {s : Session} {c : Char} {rest : List Char} (hahead : s.reader.ahead = c :: rest)
    (hc : Text.isBlank c) : Turn s (s.capture (s.reader.pass (.blank c)) [])
  | block {s : Session} {body rest : List Char}
    (hahead : s.reader.ahead = (Trivia.block body).chars ++ rest)
    (hbody : Trivia.NoClosingMark body) :
    Turn s (s.capture (s.reader.pass (.block body)) [s.docOfBlock body])
  | lines {s : Session} (hmark : ['/', '/'] <+: s.reader.ahead) : Turn s s.captureLines

/-- The second session is the first one further on in its gap. -/
structure Further (s t : Session) : Prop where
  options : t.options = s.options
  skipMark : t.reader.skipMark = t.reader
  items : t.gapItems.length < s.gapItems.length
  skipGap : t.skipGap = s.skipGap

theorem capture_capture (s : Session) (r r' : Reader) (docs docs' : List Doc) :
    (s.capture r docs).capture r' docs' = s.capture r' (docs ++ docs') := by
  simp [capture, List.getLast?_append, Option.or_assoc]

/-! ## Gaps -/

theorem gapDocs_of_everyComment (hskip : s.reader.skipMark = s.reader)
    (hevery : s.options.everyComment) : s.gapDocs = Doc.every s.reader s.gapItems := by
  rw [gapDocs, hevery, hskip]
  rfl

/-- The items of the gap and what stands behind them. -/
theorem exists_ahead_of_gapItems (hskip : s.reader.skipMark = s.reader) :
    ∃ rest, s.reader.ahead = s.gapItems.flatMap Trivia.chars ++ rest ∧
      Trivia.IsGap s.gapItems rest ∧ Trivia.read? rest = none := by
  rw [gapItems, hskip]
  exact ⟨_, (Trivia.flatMap_chars_gap _).symm, Trivia.isGap_gap _, Trivia.read?_gap _⟩

theorem skipGap_of_no_items (hskip : s.reader.skipMark = s.reader) (hitems : s.gapItems = []) :
    s.skipGap = s := by
  have hdocs : s.gapDocs = [] := by rw [gapDocs, hitems, Doc.captured_nil]
  simp [skipGap, hitems, hdocs, hskip]

/-- Behind the first items of a gap the session stands in front of the others. -/
theorem gapItems_of_passed (passed : List Trivia) (docs : List Doc)
    (hitems : s.gapItems = passed ++ left) (hne : passed ≠ [])
    (ht : s.capture (passed.foldl Reader.pass s.reader.skipMark) docs = t) :
    t.reader.skipMark = t.reader ∧ t.gapItems = left := by
  have hahead := (Trivia.flatMap_chars_gap s.reader.skipMark.ahead).symm
  have hgap := Trivia.isGap_gap s.reader.skipMark.ahead
  change Trivia.IsGap s.gapItems _ at hgap
  change s.reader.skipMark.ahead = s.gapItems.flatMap _ ++ _ at hahead
  rw [hitems] at hgap hahead
  rw [List.flatMap_append, List.append_assoc] at hahead
  have hreader : t.reader = passed.foldl Reader.pass s.reader.skipMark := by rw [← ht]; rfl
  have hbehind := Reader.foldl_pass_eq hahead
  have hskip : t.reader.skipMark = t.reader := by
    apply Reader.skipMark_of_behind_ne_nil
    obtain ⟨first, others, rfl⟩ := List.exists_cons_of_ne_nil hne
    rw [hreader, hbehind]
    simp [Trivia.chars_ne_nil]
  refine ⟨hskip, ?_⟩
  rw [gapItems, hskip, hreader, hbehind,
    Trivia.gap_append hgap.of_append (Trivia.read?_gap s.reader.skipMark.ahead)]

/-- Where the first items of a gap are passed and their documentation is captured, the session goes
    on with the other items. -/
theorem skipGap_of_passed (passed : List Trivia) (docs : List Doc)
    (hitems : s.gapItems = passed ++ left) (hne : passed ≠ [])
    (hdocs : s.gapDocs = docs ++ Doc.captured s.options.everyComment
      (passed.foldl Reader.pass s.reader.skipMark) left) :
    (s.capture (passed.foldl Reader.pass s.reader.skipMark) docs).skipGap = s.skipGap := by
  generalize ht : s.capture (passed.foldl Reader.pass s.reader.skipMark) docs = t
  obtain ⟨hskip, hleft⟩ := gapItems_of_passed passed docs hitems hne ht
  have hreader : t.reader = passed.foldl Reader.pass s.reader.skipMark := by rw [← ht]; rfl
  have hoptions : t.options = s.options := by rw [← ht]; rfl
  change t.capture (t.gapItems.foldl Reader.pass t.reader.skipMark) t.gapDocs =
    s.capture (s.gapItems.foldl Reader.pass s.reader.skipMark) s.gapDocs
  rw [gapDocs, hskip, hleft, hoptions, hdocs, hreader, hitems, List.foldl_append, ← ht,
    capture_capture]

theorem further_of_passed (passed : List Trivia) (docs : List Doc)
    (hskip : s.reader.skipMark = s.reader) (hevery : s.options.everyComment)
    (hitems : s.gapItems = passed ++ left) (hne : passed ≠ [])
    (hdocs : Doc.every s.reader s.gapItems =
      docs ++ Doc.every (passed.foldl Reader.pass s.reader) left) :
    s.Further (s.capture (passed.foldl Reader.pass s.reader) docs) := by
  have hgapDocs : s.gapDocs = docs ++ Doc.captured s.options.everyComment
      (passed.foldl Reader.pass s.reader.skipMark) left := by
    rw [gapDocs_of_everyComment hskip hevery, hdocs, hskip, hevery]
    rfl
  have hskipGap := skipGap_of_passed passed docs hitems hne hgapDocs
  obtain ⟨hskip', hleft⟩ := gapItems_of_passed passed docs hitems hne rfl
  rw [hskip] at hskipGap hskip' hleft
  refine ⟨rfl, hskip', ?_, hskipGap⟩
  rw [hleft, hitems, List.length_append]
  exact Nat.lt_add_of_pos_left (List.length_pos_iff.mpr hne)

/-! ## Lines -/

/-- The gap in front of a session at a line comment starts with this comment. -/
theorem exists_gapItems_of_lineMark (hmark : ['/', '/'] <+: s.reader.ahead) :
    ∃ body ended us rest, s.reader.skipMark = s.reader ∧ s.gapItems = .line body ended :: us ∧
      s.reader.ahead = (Trivia.line body ended).chars ++ (us.flatMap Trivia.chars ++ rest) ∧
      Trivia.IsGap (.line body ended :: us) rest ∧ Trivia.read? rest = none := by
  obtain ⟨cs, hcs⟩ := hmark
  have hskip : s.reader.skipMark = s.reader :=
    Reader.skipMark_of_head?_ne (by simp [← hcs])
  obtain ⟨body, ended, below, hread⟩ : ∃ body ended below,
      Trivia.read? s.reader.ahead = some (.line body ended, below) := by
    rw [← hcs]
    change ∃ body ended below, some (Trivia.splitLine cs) = _
    unfold Trivia.splitLine
    split
    · exact ⟨_, _, _, rfl⟩
    · exact ⟨_, _, _, rfl⟩
  have hgap := Trivia.gap_of_read?_eq_some hread
  obtain ⟨hahead, hfits, hend⟩ := Trivia.gap_eq_iff.mp hgap
  rw [List.flatMap_cons, List.append_assoc] at hahead
  exact ⟨body, ended, _, _, hskip, by rw [gapItems, hskip, hgap], hahead, hfits, hend⟩

theorem docOfLines_of_absorbed
    (hbodies : body :: Trivia.lineBodies (Doc.absorbed s.reader us).1 =
      s.reader.commentLines.map Text.commentBody) :
    s.docOfLines = ⟨.line,
      String.ofList (Doc.normalize true
        (Text.unlines (body :: Trivia.lineBodies (Doc.absorbed s.reader us).1))),
      s.line + (Trivia.lineBodies (Doc.absorbed s.reader us).1).length⟩ := by
  have hlength := congrArg List.length hbodies
  rw [List.length_cons, List.length_map] at hlength
  rw [docOfLines, ← hbodies, ← hlength]
  rfl

/-- The text of the comment has the cleaned bodies of the lines, without the empty ones around. -/
theorem text_docOfLines (hmark : ['/', '/'] <+: s.reader.ahead) :
    s.docOfLines.text = String.ofList (Text.unlines (Text.trimLines
      (s.reader.commentLines.map fun l => Doc.cleanLine true (Text.commentBody l)))) := by
  obtain ⟨body, ended, us, rest, -, -, hahead, hgap, hend⟩ := exists_gapItems_of_lineMark hmark
  obtain ⟨hbodies, -⟩ := Reader.absorbed_eq_commentLines hahead hgap hend
  have hne : s.reader.commentLines.map Text.commentBody ≠ [] := hbodies ▸ List.cons_ne_nil _ _
  have hlines : ∀ l ∈ s.reader.commentLines.map Text.commentBody, '\n' ∉ l := by
    intro l hl
    apply hgap.newline_not_mem_lineBodies
    rw [← hbodies] at hl
    rw [← Doc.absorbed_append s.reader us, Trivia.lineBodies, Trivia.lineBodies_append]
    exact List.mem_append_left _ hl
  rw [docOfLines, Doc.normalize_eq_unlines, Text.lines_unlines hne hlines, List.map_map]
  rfl

/-- Behind the lines that a line comment takes, a session is at the start of the next line. -/
theorem head?_behind_captureLines (h : s.captureLines.reader.ahead ≠ []) :
    s.captureLines.reader.behind.head? = some '\n' := by
  obtain ⟨n, hlength⟩ := Nat.exists_eq_succ_of_ne_zero
    (mt List.length_eq_zero_iff.mp s.reader.commentLines_ne_nil)
  have hreader : s.captureLines.reader = (Reader.passLine^[n] s.reader).passLine := by
    rw [← Function.iterate_succ_apply' Reader.passLine n, ← hlength]
    rfl
  rw [hreader] at h ⊢
  exact Reader.head?_behind_passLine h

/-- A caret captures the same comment and comes to the same place. -/
theorem item?_caret_of_lineMark (hmark : ['/', '/'] <+: s.reader.ahead)
    (hw : s.reader.Within Caret.maxLine) :
    s.reader.caret.item? true =
      some (.passed (some s.docOfLines), s.captureLines.reader.caret) := by
  obtain ⟨body, ended, us, rest, -, -, hahead, hgap, hend⟩ := exists_gapItems_of_lineMark hmark
  obtain ⟨hbodies, hpassed⟩ := Reader.absorbed_eq_commentLines hahead hgap hend
  obtain ⟨cs, hcs⟩ := hmark
  rw [Reader.item?_caret_of_line true hcs.symm,
    Reader.lineComment?_caret_every hw hahead hgap hend, docOfLines_of_absorbed hbodies, hpassed]
  rfl

/-! ## Turns -/

/-- A line comment leaves no choice. -/
theorem Turn.eq_captureLines (h : Turn s t) (hmark : ['/', '/'] <+: s.reader.ahead) :
    t = s.captureLines := by
  obtain ⟨cs, hcs⟩ := hmark
  cases h with
  | blank hahead hc =>
    obtain ⟨rfl, -⟩ := List.cons.inj (hcs.trans hahead)
    exact absurd hc (by decide)
  | block hahead hbody =>
    have hsecond := (List.cons.inj (List.cons.inj (hcs.trans hahead)).2).1
    exact absurd hsecond (by decide)
  | lines => rfl

/-- As long as items are left there is a turn that leads further. -/
theorem exists_turn (hskip : s.reader.skipMark = s.reader) (hevery : s.options.everyComment)
    (hne : s.gapItems ≠ []) : ∃ t, Turn s t ∧ s.Further t := by
  obtain ⟨rest, hahead, hgap, hend⟩ := exists_ahead_of_gapItems hskip
  obtain ⟨first, us, hitems⟩ := List.exists_cons_of_ne_nil hne
  rw [hitems, List.flatMap_cons, List.append_assoc] at hahead
  rw [hitems] at hgap
  cases first with
  | blank c =>
    refine ⟨_, .blank hahead hgap.1, ?_⟩
    apply further_of_passed [.blank c] [] hskip hevery hitems (List.cons_ne_nil _ _)
    rw [hitems, Doc.every]
    rfl
  | block body =>
    refine ⟨_, .block hahead hgap.1, ?_⟩
    apply further_of_passed [.block body] [s.docOfBlock body] hskip hevery hitems
      (List.cons_ne_nil _ _)
    rw [hitems, Doc.every]
    rfl
  | line body ended =>
    obtain ⟨hbodies, hpassed⟩ := Reader.absorbed_eq_commentLines hahead hgap hend
    refine ⟨_, .lines (by simp [hahead, Trivia.chars]), ?_⟩
    rw [captureLines, ← hpassed]
    have hsplit : s.gapItems =
        (.line body ended :: (Doc.absorbed s.reader us).1) ++ (Doc.absorbed s.reader us).2 := by
      rw [hitems, List.cons_append, Doc.absorbed_append]
    apply further_of_passed _ [s.docOfLines] hskip hevery hsplit (List.cons_ne_nil _ _)
    rw [hitems, Doc.every, docOfLines_of_absorbed hbodies]
    rfl

/-- What is captured behind the lines is what would have been captured. -/
theorem skipGap_captureLines (hmark : ['/', '/'] <+: s.reader.ahead)
    (hevery : s.options.everyComment) : s.captureLines.skipGap = s.skipGap := by
  obtain ⟨body, ended, us, rest, hskip, hitems, -⟩ := exists_gapItems_of_lineMark hmark
  obtain ⟨t, hturn, hfurther⟩ := exists_turn hskip hevery (hitems ▸ List.cons_ne_nil _ _)
  rw [← hturn.eq_captureLines hmark, hfurther.skipGap]

/-- A gap is skipped turn by turn. -/
theorem turns_skipGap (hskip : s.reader.skipMark = s.reader) (hevery : s.options.everyComment) :
    Relation.ReflTransGen Turn s s.skipGap := by
  induction hlength : s.gapItems.length using Nat.strong_induction_on generalizing s with
  | _ n ih =>
  cases hitems : s.gapItems with
  | nil => rw [skipGap_of_no_items hskip hitems]
  | cons first us =>
    obtain ⟨t, hturn, hfurther⟩ := exists_turn hskip hevery (hitems ▸ List.cons_ne_nil first us)
    rw [← hfurther.skipGap]
    exact .head hturn
      (ih _ (hlength ▸ hfurther.items) hfurther.skipMark (hfurther.options ▸ hevery) rfl)

/-- The byte order mark goes first. -/
theorem skipGap_skipMark (s : Session) :
    ({ s with reader := s.reader.skipMark } : Session).skipGap = s.skipGap := by
  have hskip := s.reader.skipMark_skipMark
  have hitems : ({ s with reader := s.reader.skipMark } : Session).gapItems = s.gapItems := by
    simp only [gapItems, hskip]
  simp only [skipGap, gapDocs, hitems, hskip]

/-- Where every comment is documentation a gap is skipped turn by turn, and at a line comment the
    turn captures one comment and leads behind its lines: the line of the comment and, if nothing
    but indentation stands in front of it there, the longest sequence of lines directly below that
    are line comments behind indentation. The comment has the bodies of these lines, each cleaned,
    without the empty lines around them, and ends on the line of the last of them. The session comes
    to the start of the line below or to the end of the text, as many lines down as were taken. A
    caret does the same. -/
theorem lineComments_captured (s : Session) (hevery : s.options.everyComment) :
    Relation.ReflTransGen Turn { s with reader := s.reader.skipMark } s.skipGap ∧
      ∀ t : Session, ['/', '/'] <+: t.reader.ahead →
        (∀ t', Turn t t' → t' = t.captureLines) ∧
        (t.options.everyComment → t.captureLines.skipGap = t.skipGap) ∧
        t.docOfLines.text = String.ofList (Text.unlines (Text.trimLines
          (t.reader.commentLines.map fun l => Doc.cleanLine true (Text.commentBody l)))) ∧
        t.docOfLines.line =
          (Reader.passLine^[t.reader.commentLines.length - 1] t.reader).line ∧
        t.captureLines.reader.source = t.reader.source ∧
        t.captureLines.reader.ahead =
          Text.unlines ((Text.lines t.reader.ahead).drop t.reader.commentLines.length) ∧
        (t.captureLines.reader.ahead ≠ [] →
          t.captureLines.reader.behind.head? = some '\n') ∧
        t.captureLines.line = t.line + t.reader.commentLines.length ∧
        (t.reader.Within Caret.maxLine → t.reader.caret.item? true =
          some (.passed (some t.docOfLines), t.captureLines.reader.caret)) := by
  constructor
  · rw [← skipGap_skipMark]
    exact turns_skipGap s.reader.skipMark_skipMark hevery
  · intro t hmark
    exact ⟨fun t' hturn => hturn.eq_captureLines hmark, skipGap_captureLines hmark,
      text_docOfLines hmark,
      (Reader.line_iterate_passLine _ _).symm, Reader.source_iterate_passLine _ _,
      Reader.ahead_iterate_passLine _ _, head?_behind_captureLines,
      Reader.line_iterate_passLine _ _, item?_caret_of_lineMark hmark⟩

/-- A run behind indentation, which a comment on a line of its own opens and an empty one ends. -/
theorem lineComments_captured_three_lines :
    let s := ofString ⟨true, false⟩ " // one\n\t//two\n//\nx"
    let t := s.capture (s.reader.pass (.blank ' ')) []
    s.options.everyComment ∧ Relation.ReflTransGen Turn s s.skipGap ∧
      t.captureLines.skipGap = s.skipGap ∧
      t.docOfLines = ⟨.line, "one\ntwo", 3⟩ ∧ t.captureLines.reader.ahead = ['x'] ∧
      t.captureLines.line = 4 ∧
      t.reader.caret.item? true =
        some (.passed (some ⟨.line, "one\ntwo", 3⟩), t.captureLines.reader.caret) := by
  intro s t
  obtain ⟨hturns, hlines⟩ := lineComments_captured s rfl
  obtain ⟨-, hskip, -, -, -, hahead, -, hcount, hcaret⟩ := hlines t (by decide)
  have hdoc : t.docOfLines = ⟨.line, "one\ntwo", 3⟩ := by decide +kernel
  have hwithin : t.reader.Within Caret.maxLine := by
    unfold Reader.Within
    decide
  rw [hdoc] at hcaret
  have hfirst : t.skipGap = s.skipGap := by decide +kernel
  refine ⟨rfl, hturns, (hskip rfl).trans hfirst, hdoc, ?_, ?_, hcaret hwithin⟩
  · rw [hahead]
    decide +kernel
  · rw [hcount]
    decide +kernel

end SchemaLex.Session
