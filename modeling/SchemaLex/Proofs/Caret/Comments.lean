-- SUMMARY: A caret passes a comment as its reader does, and finds the same documentation in it.
import SchemaLex.Proofs.Caret.Moves
import SchemaLex.Proofs.Doc.Marked
import SchemaLex.Proofs.Doc.Run

/-!
# Comments under a Caret

A caret finds the end of a comment by moving on until it stands there, and cuts the body out behind
it. In front of a comment of either form this leads where passing the comment leads the reader. A
comment that takes in those of the lines below it is followed line by line: `linesBelow?_caret`.
-/

namespace SchemaLex

namespace Trivia

variable {ts : List Trivia} {rest : List Char}

/-- What stands behind the body of a line comment ends its line. -/
theorem Fits.head?_lineEnd {body : List Char} {ended : Bool} (h : (line body ended).Fits rest) :
    ((if ended then ['\n'] else []) ++ rest).head?.all (· == '\n') := by
  cases ended with
  | true => rfl
  | false =>
    obtain ⟨-, rfl⟩ := h
    rfl

theorem lineBodies_blanks (cs : List Char) : lineBodies (cs.map blank) = [] := by
  induction cs with
  | nil => rfl
  | cons c cs ih => exact ih

/-- Behind its indentation a gap has no line comment first and the run is empty, or it has one and
    the run starts there. -/
theorem IsGap.run_cases (h : IsGap ts rest) (hend : read? rest = none) :
    ((run ts).1 = [] ∧ ¬ ['/', '/'] <+: (ts.flatMap chars ++ rest).dropWhile Text.isIndent) ∨
      ∃ (indent body : List Char) (ended : Bool) (us : List Trivia),
        (∀ c ∈ indent, Text.isIndent c) ∧ ts = indent.map blank ++ line body ended :: us ∧
          (run ts).1 = indent.map blank ++ line body ended :: (run us).1 := by
  induction ts with
  | nil =>
    refine .inl ⟨rfl, ?_⟩
    rw [List.flatMap_nil, List.nil_append]
    rcases read?_eq_none_iff.mp hend with rfl | ⟨body, rfl, -⟩ | ⟨c, cs, rfl, hblank, hslash⟩
    · simp
    · simp [Text.isIndent]
    · have hindent : Text.isIndent c = false :=
        Bool.eq_false_iff.mpr fun hc => by simp [Text.isBlank_of_isIndent hc] at hblank
      rw [List.dropWhile_cons, hindent]
      rintro ⟨tail, htail⟩
      obtain ⟨rfl, rfl⟩ := List.cons.inj htail
      exact (hslash rfl).1 rfl
  | cons t ts ih =>
    cases t with
    | blank c =>
      by_cases hc : Text.isIndent c
      · rcases ih h.2 with ⟨hnil, hno⟩ | ⟨indent, body, ended, us, hindent, rfl, hrun⟩
        · refine .inl ⟨by simp [run, hnil], ?_⟩
          simpa [chars, hc] using hno
        · refine .inr ⟨c :: indent, body, ended, us, ?_, rfl, by simp [run, hc, hrun]⟩
          exact List.forall_mem_cons.mpr ⟨hc, hindent⟩
      · have hblank : Text.isBlank c := h.1
        refine .inl ⟨by simp [run, hc], ?_⟩
        simp only [List.flatMap_cons, chars, List.cons_append, List.dropWhile_cons, hc,
          Bool.false_eq_true, ↓reduceIte]
        rintro ⟨tail, htail⟩
        obtain ⟨rfl, -⟩ := List.cons.inj htail
        exact absurd hblank (by decide)
    | line body ended => exact .inr ⟨[], body, ended, ts, by simp, rfl, rfl⟩
    | block body => exact .inl ⟨rfl, by simp [chars, Text.isIndent]⟩

/-- A star that a slash follows is in the body of a block comment only if the comment ends there. -/
theorem NoClosingMark.not_prefix {body before after tail : List Char} {c : Char}
    (h : NoClosingMark body) (hbody : body = before ++ c :: after)
    (htail : tail = [] ∨ ['*', '/'] <+: tail) : ¬ ['*', '/'] <+: c :: after ++ tail := by
  intro hmark
  cases after with
  | nil =>
    rcases htail with rfl | ⟨tail, rfl⟩
    · simpa using hmark.length_le
    · simp at hmark
  | cons d after =>
    obtain ⟨more, hmore⟩ := hmark
    simp only [List.cons_append, List.nil_append, List.cons.injEq] at hmore
    obtain ⟨rfl, rfl, -⟩ := hmore
    exact h ⟨before, after, by simp [hbody]⟩

end Trivia

namespace Reader

variable {r : Reader} {ts us : List Trivia} {xs body rest : List Char} {ended everyComment : Bool}

/-! ## Places -/

theorem line_advance_of_newline_not_mem (h : r.ahead = xs ++ rest) (hxs : '\n' ∉ xs) :
    (r.advance xs.length).line = r.line := by
  simp [advance, h, List.count_eq_zero.mpr hxs]

theorem foldl_pass_blanks (cs : List Char) (r : Reader) :
    (cs.map Trivia.blank).foldl pass r = r.advance cs.length := by
  induction cs generalizing r with
  | nil => exact r.advance_zero.symm
  | cons c cs ih =>
    have hpass : r.pass (.blank c) = r.advance 1 := rfl
    rw [List.map_cons, List.foldl_cons, ih, hpass, advance_advance, List.length_cons, Nat.add_comm]

theorem goTo_bookmark_caret (r : Reader) (k : Nat) :
    (r.advance k).caret.goTo r.caret.bookmark = r.caret := by
  simp [Caret.goTo, Caret.bookmark, caret]

/-- Two characters lie ahead, the first of them of one byte. -/
theorem current_and_charAt_caret {c d : Char} (hc : c.utf8Size = 1) (hc' : c ≠ '\x00')
    (hd : d ≠ '\x00') (r : Reader) :
    (r.caret.current == c && r.caret.charAt 1 == d) = decide ([c, d] <+: r.ahead) := by
  rw [current_caret]
  cases hahead : r.ahead with
  | nil => simp [hc'.symm]
  | cons x xs =>
    by_cases hx : x = c
    · subst hx
      rw [charAt_one_caret hc hahead]
      cases xs with
      | nil => simp [hd.symm]
      | cons y ys => simp [Bool.beq_eq_decide_eq, eq_comm]
    · simp [hx, Ne.symm hx]

theorem atLineMark_caret (r : Reader) :
    r.caret.atLineMark = decide (['/', '/'] <+: r.ahead) :=
  r.current_and_charAt_caret rfl (by decide) (by decide)

theorem atOpeningMark_caret (r : Reader) :
    r.caret.atOpeningMark = decide (['/', '*'] <+: r.ahead) :=
  r.current_and_charAt_caret rfl (by decide) (by decide)

theorem atClosingMark_caret (r : Reader) :
    r.caret.atClosingMark = decide (['*', '/'] <+: r.ahead) :=
  r.current_and_charAt_caret rfl (by decide) (by decide)

theorem atLineEnd_caret (r : Reader) : r.caret.atLineEnd = r.ahead.head?.all (· == '\n') := by
  rw [Caret.atLineEnd, atEnd_caret, current_caret]
  cases r.ahead <;> rfl

theorem atIndentEnd_caret (r : Reader) :
    r.caret.atIndentEnd = r.ahead.head?.all fun c => !Text.isIndent c := by
  rw [Caret.atIndentEnd, current_caret]
  cases r.ahead <;> rfl

/-! ## Line Comments -/

/-- The text of a line comment is what lies behind its slashes and its marker, to the line's end. -/
theorem restOfLine?_caret (marker : List Char) {inner : List Char}
    (hw : r.Within Caret.maxLine)
    (h : r.ahead = (Trivia.line (marker ++ inner) ended).chars ++ rest)
    (hfits : (Trivia.line (marker ++ inner) ended).Fits rest) :
    (r.advance (marker.length + 2)).caret.restOfLine? =
      some (inner, (r.advance ((marker ++ inner).length + 2)).caret) := by
  have hahead : (r.advance (marker.length + 2)).ahead
      = inner ++ ((if ended then ['\n'] else []) ++ rest) := by
    simp [h, Trivia.chars]
  have hinside : ∀ c ∈ inner, (c == '\n') = false := fun c hc =>
    beq_eq_false_iff_ne.mpr fun heq =>
      hfits.newline_not_mem (List.mem_append_right _ (heq ▸ hc))
  have hpass := passUntil?_caret_of_char atLineEnd_caret (hw.advance _) hahead hinside
    hfits.head?_lineEnd
  have hwidth : marker.length + 2 + inner.length = (marker ++ inner).length + 2 := by
    rw [List.length_append]
    omega
  have hcut := (r.advance (marker.length + 2)).since?_caret inner.length
  rw [advance_advance, hwidth] at hpass hcut
  rw [hahead, List.take_left] at hcut
  simp only [Caret.restOfLine?, hpass, hcut, Option.bind_eq_bind, Option.bind_some]
  rfl

/-- A line comment is on one line. -/
theorem line_advance_of_line (h : r.ahead = (Trivia.line body ended).chars ++ rest)
    (hfits : (Trivia.line body ended).Fits rest) :
    (r.advance (body.length + 2)).line = r.line := by
  have hmark : r.ahead = ('/' :: '/' :: body) ++ ((if ended then ['\n'] else []) ++ rest) := by
    simp [h, Trivia.chars]
  exact line_advance_of_newline_not_mem hmark (by simp [hfits.newline_not_mem])

/-- Behind the body of a line comment, to end the line is to pass the comment. -/
theorem passLineEnd?_caret (hw : r.Within Caret.maxLine)
    (h : r.ahead = (Trivia.line body ended).chars ++ rest)
    (hfits : (Trivia.line body ended).Fits rest) :
    (r.advance (body.length + 2)).caret.passLineEnd? = some (r.pass (.line body ended)).caret := by
  have hend : (r.advance (body.length + 2)).caret.endLine?
      = some (r.pass (.line body ended)).caret := by
    cases ended with
    | true =>
      have hahead : (r.advance (body.length + 2)).ahead = '\n' :: rest := by
        simp [h, Trivia.chars]
      have hwidth : (Trivia.line body true).chars.length = body.length + 2 + 1 := by
        simp [Trivia.chars]
      have hpass : r.pass (.line body true) = (r.advance (body.length + 2)).advance 1 := by
        rw [advance_advance, ← hwidth]
        rfl
      rw [Caret.endLine?, atEnd_caret, hahead, hpass]
      exact advanceBy?_caret 1 _
    | false =>
      obtain ⟨-, rfl⟩ := hfits
      have hahead : (r.advance (body.length + 2)).ahead = [] := by simp [h, Trivia.chars]
      have hwidth : (Trivia.line body false).chars.length = body.length + 2 := by
        simp [Trivia.chars]
      have hpass : (r.pass (.line body false)).caret
          = let behind := (r.advance (body.length + 2)).caret
            { behind with line := behind.line + 1 } := by
        rw [← hwidth]
        rfl
      rw [Caret.endLine?, atEnd_caret, hahead, hpass]
      rfl
  rw [Caret.passLineEnd?, hend, Option.bind_some, counted?_caret (hw.pass h hfits)]

/-- The line below is a line comment behind indentation. -/
theorem nextLine?_caret_of_line {indent : List Char} (hw : r.Within Caret.maxLine)
    (hindent : ∀ c ∈ indent, Text.isIndent c)
    (h : r.ahead = indent ++ ((Trivia.line body ended).chars ++ rest))
    (hfits : (Trivia.line body ended).Fits rest) :
    r.caret.nextLine? =
      some (some body, ((r.advance indent.length).advance (body.length + 2)).caret) := by
  have hpass := passUntil?_caret_of_char atIndentEnd_caret hw h
    (fun c hc => by simp [hindent c hc]) (by simp [Trivia.chars, Text.isIndent])
  have hahead := ahead_advance_of_eq_append h
  have hrest : ((r.advance indent.length).advance 2).caret.restOfLine? = _ :=
    restOfLine?_caret [] (hw.advance _) hahead hfits
  have hmark : (r.advance indent.length).caret.atLineMark := by
    rw [atLineMark_caret, hahead]
    simp [Trivia.chars]
  have hne : r.caret.atEnd = false := by simp [h, Trivia.chars]
  rw [Caret.nextLine?, hne]
  simp [hpass, hmark, moveBy?_caret (hw.advance _), hrest]

/-- Elsewhere the caret comes back. -/
theorem nextLine?_caret_of_other (hw : r.Within Caret.maxLine)
    (h : ¬ ['/', '/'] <+: r.ahead.dropWhile Text.isIndent) :
    r.caret.nextLine? = some (none, r.caret) := by
  rw [Caret.nextLine?]
  split
  · rfl
  · have hsplit := (List.takeWhile_append_dropWhile (p := Text.isIndent) (l := r.ahead)).symm
    have hindent : ∀ c ∈ r.ahead.takeWhile Text.isIndent, (!Text.isIndent c) = false :=
      fun c hc => by simpa using List.all_eq_true.mp List.all_takeWhile c hc
    have hstop : (r.ahead.dropWhile Text.isIndent).head?.all fun c => !Text.isIndent c := by
      simpa using Text.head?_dropWhile_not_all (fun c => !Text.isIndent c) r.ahead
    have hpass := passUntil?_caret_of_char atIndentEnd_caret hw hsplit hindent hstop
    have hmark : (r.advance (r.ahead.takeWhile Text.isIndent).length).caret.atLineMark = false := by
      rw [atLineMark_caret, ahead_advance_of_eq_append hsplit]
      exact decide_eq_false h
    simp [hpass, hmark, goTo_bookmark_caret]

/-- The lines below that are line comments are the run of the gap in front of the reader. -/
theorem linesBelow?_caret {line : Nat} (hw : r.Within Caret.maxLine)
    (h : r.ahead = ts.flatMap Trivia.chars ++ rest) (hgap : Trivia.IsGap ts rest)
    (hend : Trivia.read? rest = none) (hline : r.line = line + 1) :
    r.caret.linesBelow? line =
      some (Trivia.lineBodies (Trivia.run ts).1,
        line + (Trivia.lineBodies (Trivia.run ts).1).length,
        ((Trivia.run ts).1.foldl Reader.pass r).caret) := by
  induction hlength : ts.length using Nat.strong_induction_on generalizing ts r line with
  | _ n ih =>
  rw [Caret.linesBelow?]
  rcases hgap.run_cases hend with ⟨hnil, hno⟩ | ⟨indent, body, ended, us, hindent, rfl, hrun⟩
  · rw [nextLine?_caret_of_other hw (h ▸ hno), hnil]
    rfl
  · obtain ⟨hfits, hbelow⟩ : Trivia.IsGap (.line body ended :: us) rest := hgap.of_append
    simp only [List.flatMap_append, Trivia.flatMap_chars_blanks, List.flatMap_cons,
      List.append_assoc] at h
    have hhere := ahead_advance_of_eq_append h
    have hnewline : '\n' ∉ indent := Text.newline_not_mem_of_isIndent hindent
    have hsame : (r.advance indent.length).line = r.line :=
      line_advance_of_newline_not_mem h hnewline
    have hbehind := (line_advance_of_line hhere hfits).trans hsame
    have hnext := passLineEnd?_caret (hw.advance _) hhere hfits
    have hcrossed : r.ahead = (indent ++ (Trivia.line body ended).chars)
        ++ ((r.advance indent.length).pass (.line body ended)).ahead := by
      rw [ahead_pass_of_eq_append hhere, h, List.append_assoc]
    have hless := left_lt_of_crossed (by simp [Trivia.chars]) hcrossed
    have hshorter : us.length < n := by
      rw [← hlength, List.length_append, List.length_cons]
      omega
    have hlater := ih us.length hshorter ((hw.advance _).pass hhere hfits)
      (ahead_pass_of_eq_append hhere) hbelow
      ((line_pass_line hfits.newline_not_mem hhere).trans (by rw [hsame])) rfl
    rw [nextLine?_caret_of_line hw hindent h hfits]
    simp only [hnext, hless, ↓reduceIte, line_caret, hbehind, hlater, Option.map_some, hrun,
      Trivia.lineBodies_append, Trivia.lineBodies_blanks, Trivia.lineBodies, List.nil_append,
      List.foldl_append, foldl_pass_blanks, List.foldl_cons, List.length_cons]
    rw [hline, Nat.add_assoc, Nat.add_comm 1]

/-- Where every comment is documentation, a line comment that has its line for itself takes in those
    of the lines below. -/
theorem lineComment?_caret_every (hw : r.Within Caret.maxLine)
    (h : r.ahead = (Trivia.line body ended).chars ++ (us.flatMap Trivia.chars ++ rest))
    (hgap : Trivia.IsGap (.line body ended :: us) rest) (hend : Trivia.read? rest = none) :
    r.caret.lineComment? true =
      some (some ⟨.line,
          String.ofList (Doc.normalize true
            (Text.unlines (body :: Trivia.lineBodies (Doc.absorbed r us).1))),
          r.line + (Trivia.lineBodies (Doc.absorbed r us).1).length⟩,
        ((Doc.absorbed r us).1.foldl Reader.pass (r.pass (.line body ended))).caret) := by
  obtain ⟨hfits, hbelow⟩ := hgap
  have hrest : (r.advance 2).caret.restOfLine? = _ := restOfLine?_caret [] hw h hfits
  have hline := line_advance_of_line h hfits
  have hnext := passLineEnd?_caret hw h hfits
  have hlines := linesBelow?_caret (hw.pass h hfits) (ahead_pass_of_eq_append h) hbelow hend
    (line_pass_line hfits.newline_not_mem h)
  unfold Caret.lineComment? Doc.absorbed
  by_cases halone : r.atIndent
  · simp [halone, moveBy?_caret hw, hrest, hnext, hline, hlines]
  · simp [halone, moveBy?_caret hw, hrest, hnext, hline, Trivia.lineBodies]

/-- Elsewhere a third slash marks the documentation. -/
theorem lineComment?_caret_marked (hw : r.Within Caret.maxLine)
    (h : r.ahead = (Trivia.line body ended).chars ++ rest)
    (hfits : (Trivia.line body ended).Fits rest) :
    r.caret.lineComment? false =
      some (Doc.ofMarked? r (.line body ended), (r.pass (.line body ended)).caret) := by
  have hbody : (r.advance 2).ahead = body ++ ((if ended then ['\n'] else []) ++ rest) := by
    simp [h, Trivia.chars]
  have hnext := passLineEnd?_caret hw h hfits
  unfold Caret.lineComment?
  by_cases hdoc : body.head? = some '/'
  · obtain ⟨inner, rfl⟩ := List.head?_eq_some_iff.mp hdoc
    have hrest : (r.advance 3).caret.restOfLine? = _ :=
      restOfLine?_caret ['/'] hw h hfits
    have hline := line_advance_of_line h hfits
    have hopen : (r.advance 2).caret.current = '/' := by
      rw [current_caret, hbody]
      rfl
    simp only [List.length_cons] at hnext hline
    simp [moveBy?_caret hw, moveBy?_caret (hw.advance 2), advance_advance, hopen, hrest, hnext,
      hline, Doc.ofMarked?]
  · have hrest : (r.advance 2).caret.restOfLine? = _ := restOfLine?_caret [] hw h hfits
    have hopen : (r.advance 2).caret.current ≠ '/' := by
      rw [current_caret, hbody]
      cases body with
      | nil =>
        have hlineEnd := hfits.head?_lineEnd
        cases hhead : ((if ended then ['\n'] else []) ++ rest).head? with
        | none => simp [hhead]
        | some c =>
          obtain rfl : c = '\n' := by simpa [hhead] using hlineEnd
          simp [hhead]
      | cons c cs => simpa using hdoc
    have hplain : Doc.ofMarked? r (.line body ended) = none :=
      Option.not_isSome_iff_eq_none.mp (mt Doc.isSome_ofMarked?_iff.mp hdoc)
    simp [moveBy?_caret hw, hopen, hrest, hnext, hplain]

/-! ## Block Comments -/

theorem atCommentEnd_caret (r : Reader) :
    r.caret.atCommentEnd = (r.ahead.isEmpty || decide (['*', '/'] <+: r.ahead)) := by
  rw [Caret.atCommentEnd, atEnd_caret, atClosingMark_caret]

/-- A text without a closing mark is crossed if the comment ends behind it. -/
theorem passUntil?_caret_of_noClosingMark (hw : r.Within Caret.maxLine) (h : r.ahead = body ++ rest)
    (hbody : Trivia.NoClosingMark body) (hrest : rest = [] ∨ ['*', '/'] <+: rest) :
    r.caret.passUntil? Caret.atCommentEnd = some (r.advance body.length).caret := by
  refine passUntil?_caret (p := fun cs => cs.isEmpty || decide (['*', '/'] <+: cs))
    atCommentEnd_caret hw h ?_ ?_
  · intro before c after heq
    have hno := hbody.not_prefix heq hrest
    rw [decide_eq_false hno]
    rfl
  · rcases hrest with rfl | hmark
    · rfl
    · rw [decide_eq_true hmark, Bool.or_true]

theorem blockBody?_caret (hw : r.Within Caret.maxLine) (h : r.ahead = body ++ '*' :: '/' :: rest)
    (hbody : Trivia.NoClosingMark body) :
    r.caret.blockBody? = some (some body, (r.advance (body.length + 2)).caret) := by
  have hpass := passUntil?_caret_of_noClosingMark hw h hbody (.inr ⟨rest, rfl⟩)
  have hend : (r.advance body.length).caret.atEnd = false := by simp [h]
  simp [Caret.blockBody?, hpass, hend, since?_caret, h, moveBy?_caret (hw.advance _),
    advance_advance]

theorem blockBody?_caret_of_open (hw : r.Within Caret.maxLine)
    (h : Trivia.NoClosingMark r.ahead) :
    r.caret.blockBody? = some (none, (r.advance r.ahead.length).caret) := by
  have hpass := passUntil?_caret_of_noClosingMark hw (List.append_nil _).symm h (.inl rfl)
  have hend : (r.advance r.ahead.length).caret.atEnd := by simp
  simp [Caret.blockBody?, hpass, hend]

/-- A block comment is marked if its body starts with a star. -/
theorem atBlockMarker_caret (h : r.ahead = body ++ rest) (hbody : Trivia.NoClosingMark body)
    (hrest : rest = [] ∨ ['*', '/'] <+: rest) :
    r.caret.atBlockMarker = (body.head? == some '*') := by
  have hclosing : r.caret.atBlockMarker = (r.caret.current == '*' && !r.caret.atClosingMark) := by
    rw [Caret.atBlockMarker, Caret.atClosingMark, bne]
    cases r.caret.current == '*' <;> rfl
  rw [hclosing, atClosingMark_caret, current_caret, h]
  cases body with
  | nil =>
    rcases hrest with rfl | hmark
    · rfl
    · rw [List.nil_append, decide_eq_true hmark, Bool.not_true, Bool.and_false]
      rfl
  | cons c cs =>
    have hno := hbody.not_prefix (List.nil_append (c :: cs)).symm hrest
    rw [decide_eq_false hno]
    simp

theorem blockComment?_caret (hw : r.Within Caret.maxLine)
    (h : r.ahead = (Trivia.block body).chars ++ rest) (hbody : Trivia.NoClosingMark body) :
    r.caret.blockComment? everyComment =
      some (.passed
          (if everyComment then
            some ⟨.block, String.ofList (Doc.normalize true body), (r.pass (.block body)).line⟩
          else Doc.ofMarked? r (.block body)),
        (r.pass (.block body)).caret) := by
  have hopen : (r.advance 2).ahead = body ++ '*' :: '/' :: rest := by simp [h, Trivia.chars]
  have hmarker := atBlockMarker_caret hopen hbody (.inr ⟨rest, rfl⟩)
  have hclosed := blockBody?_caret (hw.advance 2) hopen hbody
  have hpass : r.advance (body.length + 4) = r.pass (.block body) := by
    have hwidth : (Trivia.block body).chars.length = body.length + 4 := by simp [Trivia.chars]
    rw [← hwidth]
    rfl
  rw [advance_advance, show 2 + (body.length + 2) = body.length + 4 by omega, hpass] at hclosed
  cases everyComment with
  | true => simp [Caret.blockComment?, moveBy?_caret hw, hclosed]
  | false =>
    by_cases hdoc : body.head? = some '*'
    · obtain ⟨inner, rfl⟩ := List.head?_eq_some_iff.mp hdoc
      have hinner : (r.advance 3).ahead = inner ++ '*' :: '/' :: rest := by simp [h, Trivia.chars]
      have hclosed := blockBody?_caret (hw.advance 3) hinner
        fun hmark => hbody (hmark.trans (List.suffix_cons _ _).isInfix)
      rw [advance_advance, show 3 + (inner.length + 2) = inner.length + 1 + 4 by omega] at hclosed
      rw [List.length_cons] at hpass
      rw [hpass] at hclosed
      simp [Caret.blockComment?, moveBy?_caret hw, moveBy?_caret (hw.advance 2), hmarker,
        advance_advance, hclosed, Doc.ofMarked?]
    · have hplain : Doc.ofMarked? r (.block body) = none :=
        Option.not_isSome_iff_eq_none.mp (mt Doc.isSome_ofMarked?_iff.mp hdoc)
      simp [Caret.blockComment?, moveBy?_caret hw, hmarker, hdoc, hclosed, hplain]

/-- A block comment that stays open is passed to the end of the text. -/
theorem blockComment?_caret_of_open (hw : r.Within Caret.maxLine) (h : r.ahead = '/' :: '*' :: body)
    (hbody : Trivia.NoClosingMark body) :
    r.caret.blockComment? everyComment =
      some (.openComment, (r.advance r.ahead.length).caret) := by
  have hopen : (r.advance 2).ahead = body ++ [] := by simp [h]
  have hmarker := atBlockMarker_caret hopen hbody (.inl rfl)
  have hlast : ∀ k, 2 ≤ k → k ≤ r.ahead.length →
      (r.advance k).caret.blockBody? = some (none, (r.advance r.ahead.length).caret) := by
    intro k hk hle
    obtain ⟨j, rfl⟩ := Nat.exists_eq_add_of_le' hk
    have hahead : (r.advance (j + 2)).ahead = body.drop j := by simp [h]
    have hdrop := blockBody?_caret_of_open (hw.advance (j + 2)) (hahead ▸
      fun hmark => hbody (hmark.trans (List.drop_suffix j body).isInfix))
    rw [advance_advance, ahead_advance, List.length_drop, Nat.add_sub_cancel' hle] at hdrop
    exact hdrop
  have hopened := hlast 2 (Nat.le_refl 2) (by simp [h])
  cases everyComment with
  | true => simp [Caret.blockComment?, moveBy?_caret hw, hopened]
  | false =>
    by_cases hdoc : body.head? = some '*'
    · have hlonger : 3 ≤ r.ahead.length := by
        obtain ⟨inner, rfl⟩ := List.head?_eq_some_iff.mp hdoc
        simp [h]
      simp [Caret.blockComment?, moveBy?_caret hw, moveBy?_caret (hw.advance 2), hmarker, hdoc,
        advance_advance, hlast 3 (by omega) hlonger]
    · simp [Caret.blockComment?, moveBy?_caret hw, hmarker, hdoc, hopened]

end Reader

end SchemaLex
