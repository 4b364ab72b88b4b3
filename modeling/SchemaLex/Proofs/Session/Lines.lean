-- SUMMARY: The line counter of a session: which newlines it has counted, and that it never falls.
import SchemaLex.Proofs.Session.Passage
import SchemaLex.Reader.Caret

/-!
# Lines

Where the newlines of literals count, the line of a session is told by its place alone: one more
than the newlines behind it, and one more again behind a `//` comment that the end of the text ends
(`line_of_run`). The line of a token and the lines of the two faults of a scan follow. No call
moves a session back.
-/

namespace SchemaLex

/-! ## Lines That End without a Newline -/

namespace Trivia

theorem endsInLineComment_cons_cons (t t' : Trivia) (ts : List Trivia) :
    endsInLineComment (t :: t' :: ts) = endsInLineComment (t' :: ts) := by
  rw [endsInLineComment, List.getLast?_cons_cons, endsInLineComment]

/-- Only the last item of a gap can be a comment that the end of the text ends. -/
theorem IsGap.sum_impliedLineEnds {gap : List Trivia} {rest : List Char} (h : IsGap gap rest) :
    (gap.map impliedLineEnds).sum = if endsInLineComment gap then 1 else 0 := by
  induction gap with
  | nil => rfl
  | cons t ts ih =>
    obtain ⟨ht, hts⟩ := h
    rw [List.map_cons, List.sum_cons, ih hts]
    cases ts with
    | nil =>
      cases t with
      | line body ended => cases ended <;> rfl
      | _ => rfl
    | cons t' ts =>
      have hzero : t.impliedLineEnds = 0 := by
        cases t with
        | line body ended =>
          obtain rfl := IsGap.ended ⟨ht, hts⟩ (List.cons_ne_nil t' ts)
          rfl
        | _ => rfl
      rw [hzero, Nat.zero_add, endsInLineComment_cons_cons]

/-- In front of something a gap ends in no such comment. -/
theorem IsGap.not_endsInLineComment {gap : List Trivia} {rest : List Char} (h : IsGap gap rest)
    (hrest : rest ≠ []) : endsInLineComment gap = false := by
  induction gap with
  | nil => rfl
  | cons t ts ih =>
    obtain ⟨ht, hts⟩ := h
    cases ts with
    | nil =>
      cases t with
      | line body ended =>
        cases ended with
        | true => rfl
        | false => exact absurd ht.2 hrest
      | _ => rfl
    | cons t' ts =>
      rw [endsInLineComment_cons_cons, ih hts]

end Trivia

namespace Part

/-- The lines that end within the part without a newline. -/
def impliedLineEnds : Part → Nat
  | trivia t => t.impliedLineEnds
  | _ => 0

theorem lineEnds_true (p : Part) : p.lineEnds true = p.chars.count '\n' + p.impliedLineEnds := by
  cases p <;> rfl

theorem sum_lineEnds_true (ps : List Part) :
    (ps.map (lineEnds true)).sum =
      (ps.flatMap chars).count '\n' + (ps.map impliedLineEnds).sum := by
  induction ps with
  | nil => rfl
  | cons p ps ih =>
    rw [List.map_cons, List.sum_cons, ih, lineEnds_true, List.flatMap_cons, List.count_append,
      List.map_cons, List.sum_cons]
    omega

theorem sum_impliedLineEnds_leading (marked : Bool) :
    ((leading marked).map impliedLineEnds).sum = 0 := by
  cases marked <;> rfl

theorem sum_impliedLineEnds_trivia (gap : List Trivia) :
    ((gap.map trivia).map impliedLineEnds).sum = (gap.map Trivia.impliedLineEnds).sum := by
  rw [List.map_map]
  rfl

end Part

theorem Piece.sum_impliedLineEnds (p : Piece) : (p.parts.map Part.impliedLineEnds).sum = 0 := by
  cases p <;> rfl

theorem Ending.sum_impliedLineEnds (e : Ending) : (e.parts.map Part.impliedLineEnds).sum = 0 := by
  cases e <;> rfl

/-- Of all gaps of a text only the last can end in a comment that the end of the text ends. -/
theorem Layout.sum_impliedLineEnds {layout : Layout} (h : layout.Fits) :
    (layout.parts.map Part.impliedLineEnds).sum =
      if Trivia.endsInLineComment layout.lastGap then 1 else 0 := by
  induction layout with
  | last gap e =>
    rw [parts, List.map_append, List.sum_append, Part.sum_impliedLineEnds_trivia,
      e.sum_impliedLineEnds, Nat.add_zero]
    exact h.1.sum_impliedLineEnds
  | more gap p rest ih =>
    obtain ⟨hgap, hp, hrest⟩ := h
    have hne : p.chars ++ rest.chars ≠ [] := by simp [Piece.chars_ne_nil hp]
    have hsum := hgap.sum_impliedLineEnds
    rw [hgap.not_endsInLineComment hne, if_neg Bool.false_ne_true] at hsum
    simp only [parts, List.map_append, List.sum_append, Part.sum_impliedLineEnds_trivia, hsum,
      p.sum_impliedLineEnds, ih hrest, Nat.zero_add]
    rfl

namespace Place

/-- The line that ended in front of the place without a newline. -/
def impliedLineEnds : Place → Nat
  | done gap => if Trivia.endsInLineComment gap then 1 else 0
  | _ => 0

/-- Such a line ends in front of every place behind the text, if the text has one. -/
theorem sum_impliedLineEnds {place : Place} (h : place.Fits) :
    (place.parts.map Part.impliedLineEnds).sum + place.impliedLineEnds =
      if Trivia.endsInLineComment place.lastGap then 1 else 0 := by
  cases place with
  | between marked layout =>
    rw [parts, List.map_append, List.sum_append, Part.sum_impliedLineEnds_leading,
      layout.sum_impliedLineEnds h, Nat.zero_add]
    rfl
  | inside q body rest =>
    rw [parts, List.map_cons, List.sum_cons, rest.sum_impliedLineEnds h.2]
    exact Nat.zero_add _
  | stuck gap q body =>
    have hends : Trivia.endsInLineComment gap = false :=
      h.1.not_endsInLineComment (List.cons_ne_nil _ _)
    simp [lastGap, hends, parts, impliedLineEnds]
  | done gap => exact Nat.zero_add _

/-- The characters ahead tell whether that line has ended. -/
theorem impliedLineEnds_eq {place : Place} (h : place.Fits) :
    place.impliedLineEnds =
      if place.chars = [] ∧ Trivia.endsInLineComment place.lastGap then 1 else 0 := by
  cases place with
  | between marked layout =>
    symm
    refine if_neg ?_
    rintro ⟨hchars, hends⟩
    obtain ⟨-, hlayout⟩ := List.append_eq_nil_iff.mp hchars
    cases layout with
    | last gap e =>
      have hgap : gap = [] := by
        have := (List.append_eq_nil_iff.mp hlayout).1
        cases gap with
        | nil => rfl
        | cons t ts => simp [Trivia.chars_ne_nil] at this
      subst hgap
      cases hends
    | more gap p rest =>
      have := (List.append_eq_nil_iff.mp hlayout).2
      simp [Piece.chars_ne_nil h.2.1] at this
  | inside q body rest => simp [chars, impliedLineEnds]
  | stuck gap q body =>
    have hends : Trivia.endsInLineComment gap = false :=
      h.1.not_endsInLineComment (List.cons_ne_nil _ _)
    simp [lastGap, hends, impliedLineEnds]
  | done gap => simp [chars, lastGap, impliedLineEnds]

end Place

namespace Session

variable {s s' : Session} {options : Options} {text : String} {layout : Layout}
  {read : List Part} {place : Place}

/-- The counter has counted the newlines behind the session. -/
theorem HasRead.line_eq (h : s.HasRead options text layout read place)
    (hcount : options.countLiteralLines) :
    s.line = 1 + s.reader.behind.count '\n' + place.impliedLineEnds := by
  -- The text as a whole has at most one such line, and it lies behind the session or ahead of it.
  have hfits : (Place.between (text.toList.head? == some '\uFEFF') layout).Fits := h.divides.fits
  have hall := Place.sum_impliedLineEnds hfits
  have hparts : (Place.between (text.toList.head? == some '\uFEFF') layout).parts =
      read ++ place.parts := h.parts
  have hahead := Place.sum_impliedLineEnds h.standsAt.fits
  rw [hparts, List.map_append, List.sum_append] at hall
  rw [h.lastGap] at hahead
  have hread : (read.map Part.impliedLineEnds).sum = place.impliedLineEnds := by
    change _ + 0 = if Trivia.endsInLineComment layout.lastGap then 1 else 0 at hall
    omega
  rw [h.line, h.options, hcount, Part.lineBehind, Part.sum_lineEnds_true, hread, h.behind,
    List.count_reverse, Nat.add_assoc]

end Session

/-! ## Moving On -/

namespace Reader

/-- The second reader is the first one or the first one moved on. -/
structure Onward (r r' : Reader) : Prop where
  line : r.line ≤ r'.line
  behind : r.behind <:+ r'.behind

variable {r r' r'' : Reader}

theorem Onward.refl (r : Reader) : r.Onward r := ⟨Nat.le_refl _, List.suffix_rfl⟩

theorem Onward.trans (h : r.Onward r') (h' : r'.Onward r'') : r.Onward r'' :=
  ⟨Nat.le_trans h.line h'.line, h.behind.trans h'.behind⟩

theorem Onward.offset_le (h : r.Onward r') : r.caret.offset ≤ r'.caret.offset := by
  obtain ⟨crossed, hbehind⟩ := h.behind
  have hsize : r'.caret.offset = r.caret.offset + Text.byteSize crossed.reverse := by
    simp [caret, ← hbehind]
  omega

theorem onward_leap (n : Nat) (r : Reader) : r.Onward (r.leap n) :=
  ⟨Nat.le_refl _, List.suffix_append _ _⟩

theorem onward_advance (n : Nat) (r : Reader) : r.Onward (r.advance n) :=
  ⟨Nat.le_add_right _ _, List.suffix_append _ _⟩

theorem onward_pass (r : Reader) (t : Trivia) : r.Onward (r.pass t) :=
  ⟨r.line_le_line_pass t, List.suffix_append _ _⟩

theorem onward_skipMark (r : Reader) : r.Onward r.skipMark := by
  unfold skipMark
  split
  · exact r.onward_leap 1
  · exact .refl r

theorem onward_foldl_pass (ts : List Trivia) (r : Reader) : r.Onward (ts.foldl pass r) := by
  induction ts generalizing r with
  | nil => exact .refl r
  | cons t ts ih => exact (r.onward_pass t).trans (ih (r.pass t))

end Reader

namespace Session

variable {s s' looked : Session} {new : List String}

theorem onward_skipGap (s : Session) : s.reader.Onward s.skipGap.reader :=
  s.reader.onward_skipMark.trans (Reader.onward_foldl_pass _ _)

theorem onward_abort {α : Type} (s : Session) (fault : Fault) (event : Event) :
    s.reader.Onward (abort (α := α) s fault event).2.reader :=
  s.reader.onward_leap _

theorem onward_scanBody (s : Session) (q : Quote) : s.reader.Onward (s.scanBody q).2.reader := by
  unfold scanBody
  split
  · exact s.onward_abort _ _
  · dsimp only
    split
    · exact s.reader.onward_advance _
    · exact s.reader.onward_leap _

theorem onward_scanLexeme (s : Session) : s.reader.Onward s.scanLexeme.2.reader := by
  refine s.onward_skipGap.trans ?_
  unfold scanLexeme
  dsimp only
  split
  · exact .refl _
  · exact (s.skipGap.reader.onward_advance _).trans (Reader.onward_leap _ _)
  · exact s.skipGap.reader.onward_advance _

theorem onward_scan (s : Session) : s.reader.Onward s.scan.2.reader := by
  unfold scan
  split
  · exact s.onward_scanBody _
  · exact s.onward_scanLexeme

theorem onward_of_looks (h : s.Looks new looked) : s.reader.Onward looked.reader := by
  cases h with
  | stay => exact .refl _
  | scan hqueue hscan =>
    have := s.onward_scan
    rwa [hscan] at this

/-- No call moves a session back, be it answered or met with a fault. -/
theorem onward_perform (s : Session) (call : Call) :
    s.reader.Onward (s.perform call).2.reader := by
  rcases hperform : s.perform call with ⟨fault | reply, s'⟩
  · rcases fault_of_perform hperform with ⟨-, hscan⟩ | ⟨wanted, -, hrefuses⟩
    · have := s.onward_scan
      rwa [hscan] at this
    · obtain ⟨actual, peeked, hpeek, -, -, rfl⟩ := hrefuses.refused
      obtain ⟨new, looked, hlooks, rfl, -⟩ := looks_of_peek hpeek
      exact (onward_of_looks hlooks).trans (onward_abort looked fault (.refused fault) (α := Unit))
  · obtain ⟨new, looked, hperforms⟩ := performs_of_perform hperform
    change s.reader.Onward s'.reader
    rw [hperforms.reader]
    exact onward_of_looks hperforms.looks

end Session

/-! ## Tokens -/

theorem Lexeme.newline_not_mem_opening {p : Piece} {rest : List Char} (h : p.Fits rest) :
    '\n' ∉ p.opening.chars := by
  cases p with
  | word text =>
    intro hmem
    exact absurd (h.1.inside '\n' hmem) (by decide)
  | mark c =>
    rcases h with hpunctuation | ⟨rfl, -⟩
    · simp only [Piece.opening, chars, List.mem_singleton]
      rintro rfl
      exact absurd hpunctuation (by decide)
    · simp [Piece.opening, chars]
  | literal q body => cases q <;> simp [Piece.opening, chars, Quote.char]

/-- Outside literals a token that a scan brings is a lexeme on one line, and the text goes on. -/
theorem Place.Step.exists_lexeme {place place' : Place} {stretch : Stretch} {token : String}
    (h : place.Step stretch place') (hfits : place.Fits) (hopened : place.opened = none)
    (htoken : stretch.tokens.head? = some token) :
    ∃ l, stretch.last = some (.lexeme l) ∧ token = l.token ∧ '\n' ∉ l.chars ∧
      place'.impliedLineEnds = 0 := by
  cases h with
  | @plain _ _ p _ _ =>
    exact ⟨p.opening, rfl, (Option.some.inj htoken).symm,
      Lexeme.newline_not_mem_opening hfits.2.1, rfl⟩
  | @quote _ _ q _ _ =>
    exact ⟨.quote q, rfl, (Option.some.inj htoken).symm,
      Lexeme.newline_not_mem_opening hfits.2.1, rfl⟩
  | body => cases hopened
  | @openQuote _ _ q _ =>
    refine ⟨.quote q, rfl, (Option.some.inj htoken).symm, ?_, rfl⟩
    cases q <;> simp [Lexeme.chars, Quote.char]
  | finish => cases htoken
  | stay => cases htoken

namespace Session

variable {s s' : Session} {options : Options} {text : String} {layout : Layout}
  {read : List Part} {place : Place} {call : Call} {reply : Reply} {fault : Fault}

/-- Behind a lexeme that a scan took, the line is that of the lexeme. -/
theorem HasRead.line_of_scan {token : String} (h : s.HasRead options text layout read place)
    (hcount : options.countLiteralLines) (hopened : s.opened = none)
    (hscan : s.scan = (.ok (some token), s')) :
    ∃ before, s'.reader.behind.reverse = before ++ token.toList ∧
      s'.line = 1 + before.count '\n' := by
  obtain ⟨stretch, place', hstep, htoken, hcross, hstands⟩ := h.standsAt.of_scan hscan
  obtain ⟨l, hlast, rfl, hnewline, himplied⟩ :=
    hstep.exists_lexeme h.standsAt.fits (h.standsAt.opened ▸ hopened) htoken.symm
  have hread := h.of_passes (hcross.passes hstep hstands)
  have hbehind : s'.reader.behind.reverse =
      read.flatMap Part.chars ++ ((Part.leading stretch.marked).flatMap Part.chars ++
        stretch.gap.flatMap Trivia.chars) ++ l.token.toList := by
    rw [hread.behind, List.reverse_reverse, List.flatMap_append, Stretch.flatMap_chars_parts, hlast]
    simp [Part.chars, Lexeme.token]
  refine ⟨_, hbehind, ?_⟩
  have htoken : l.token.toList.count '\n' = 0 :=
    List.count_eq_zero.mpr (by simpa [Lexeme.token] using hnewline)
  rw [hread.line_eq hcount, himplied, ← List.count_reverse, hbehind, List.count_append, htoken]
  rfl

/-- The same behind every call that made the session read. -/
theorem HasRead.line_of_perform {token : String} (h : s.HasRead options text layout read place)
    (hcount : options.countLiteralLines) (hopened : s.opened = none)
    (hpeek : s.peek.1 = .ok (some token)) (hperform : s.perform call = (.ok reply, s'))
    (hmoved : s'.reader ≠ s.reader) :
    ∃ before, s'.reader.behind.reverse = before ++ token.toList ∧
      s'.line = 1 + before.count '\n' := by
  obtain ⟨new, looked, hperforms⟩ := performs_of_perform hperform
  cases hperforms.looks with
  | stay => exact absurd hperforms.reader hmoved
  | @scan found looked hqueue hscan =>
    have hfound : found = some token := by
      cases found with
      | none =>
        rw [peek_of_end hqueue hscan] at hpeek
        cases hpeek
      | some found =>
        rw [peek_of_token hqueue hscan] at hpeek
        exact Except.ok.inj hpeek
    have hline : s'.line = looked.line := congrArg Reader.line hperforms.reader
    rw [hline, hperforms.reader]
    exact h.line_of_scan hcount hopened (hfound ▸ hscan)

/-! ## Faults -/

/-- A literal that stays open is told with the line of its quote. -/
theorem HasRead.line_of_openLiteral {n : Nat} (h : s.HasRead options text layout read place)
    (hcount : options.countLiteralLines) (hscan : s.scan = (.error (.openLiteral n), s')) :
    ∃ before q body, text.toList = before ++ q.char :: body ∧
      layout.ending = .openLiteral q body ∧ n = 1 + before.count '\n' := by
  rcases h.standsAt.fault_of_scan hscan with ⟨_, _, _, -, hfault⟩ | ⟨gap, q, body, rfl, hfault⟩
  · cases hfault
  · obtain rfl := Fault.openLiteral.inj hfault
    obtain ⟨front, hfront⟩ := layout.exists_append_ending
    have hending : layout.ending = .openLiteral q body := h.ending.symm
    have htext : text.toList =
        (Part.leading (text.toList.head? == some '\uFEFF')).flatMap Part.chars ++ front ++
          q.char :: body := by
      rw [List.append_assoc]
      refine (standsAt_ofString options h.divides).ahead.trans ?_
      change _ ++ layout.chars = _
      rw [hfront, hending]
      rfl
    -- The quote is the last character that the session has read.
    have hbehind : read.flatMap Part.chars =
        (Part.leading (text.toList.head? == some '\uFEFF')).flatMap Part.chars ++ front ++
          [q.char] := by
      refine List.append_cancel_right (h.chars.symm.trans (htext.trans ?_))
      simp [Place.chars]
    refine ⟨_, q, body, htext, hending, ?_⟩
    have hquote : [q.char].count '\n' = 0 := by cases q <;> rfl
    rw [h.line_eq hcount, h.behind, List.count_reverse, hbehind, List.count_append, hquote]
    rfl

/-- A block comment that stays open is told with the line that the text ends on. -/
theorem HasRead.line_of_openComment {n : Nat} (h : s.HasRead options text layout read place)
    (hcount : options.countLiteralLines) (hscan : s.scan = (.error (.openComment n), s')) :
    n = 1 + text.toList.count '\n' := by
  rcases h.standsAt.fault_of_scan hscan with ⟨marked, gap, body, rfl, hfault⟩ | ⟨_, _, _, -, hfault⟩
  · obtain rfl := Fault.openComment.inj hfault
    have hgap : Trivia.IsGap gap (Ending.openComment body).chars := h.standsAt.fits.1
    have himplied : ((Stretch.parts ⟨marked, gap, none⟩).map Part.impliedLineEnds).sum = 0 := by
      have hsum := hgap.sum_impliedLineEnds
      rw [hgap.not_endsInLineComment (List.cons_ne_nil _ _), if_neg Bool.false_ne_true] at hsum
      simp only [Stretch.parts, List.map_append, List.sum_append, Part.sum_impliedLineEnds_leading,
        Part.sum_impliedLineEnds_trivia, hsum]
      rfl
    have hchars : (Place.between marked (.last gap (.openComment body))).chars =
        (Stretch.parts ⟨marked, gap, none⟩).flatMap Part.chars ++ '/' :: '*' :: body := by
      simp [Stretch.flatMap_chars_parts, Place.chars, Layout.chars, Ending.chars]
    rw [h.line_eq hcount, h.options, hcount, Part.sum_lineEnds_true, himplied, h.chars, hchars,
      h.behind]
    simp only [List.count_append, List.count_reverse, List.count_cons]
    simp [Place.impliedLineEnds]
    omega
  · cases hfault

/-! ## Every Session -/

/-- Where the newlines of literals count, the line of a session without a fault is told by its
    place, and no call lowers it or moves the session back. Behind a lexeme that a call read, it is
    the line of the lexeme. A literal that stays open is told with the line of its quote, a block
    comment that stays open with the last line of the text. -/
theorem line_of_run {calls : List Call} {replies : List Reply}
    (hcount : options.countLiteralLines)
    (hrun : (ofString options text).run calls = (replies.map .ok, s)) :
    ∃ layout : Layout, layout.Divides (Text.dropMark text.toList) ∧
      s.reader.source = text.toList ∧
      s.line = 1 + s.reader.behind.reverse.count '\n' +
        (if s.reader.ahead = [] ∧ Trivia.endsInLineComment layout.lastGap then 1 else 0) ∧
      s.line ≤ text.toList.count '\n' + 2 ∧
      ∀ call,
        s.line ≤ (s.perform call).2.line ∧
        s.reader.caret.offset ≤ (s.perform call).2.reader.caret.offset ∧
        (∀ reply s' token, s.perform call = (.ok reply, s') → s'.reader ≠ s.reader →
          s.opened = none → s.peek.1 = .ok (some token) →
          ∃ before, s'.reader.behind.reverse = before ++ token.toList ∧
            s'.line = 1 + before.count '\n') ∧
        (∀ n, (s.perform call).1 = .error (.openLiteral n) →
          ∃ (before : List Char) (q : Quote) (body : List Char),
            text.toList = before ++ q.char :: body ∧ layout.ending = .openLiteral q body ∧
            n = 1 + before.count '\n') ∧
        ∀ n, (s.perform call).1 = .error (.openComment n) →
          n = 1 + text.toList.count '\n' := by
  obtain ⟨layout, read, place, h⟩ := hasRead_of_run hrun
  have hline := h.line_eq hcount
  rw [Place.impliedLineEnds_eq h.standsAt.fits, h.lastGap, ← h.standsAt.ahead,
    ← List.count_reverse] at hline
  have hfault (call : Call) {fault : Fault} (hanswer : (s.perform call).1 = .error fault)
      (hscanned : ∀ actual wanted n, fault ≠ .unexpected actual wanted n) :
      ∃ s', s.scan = (.error fault, s') := by
    rcases fault_of_perform (Prod.ext hanswer rfl) with ⟨-, hscan⟩ | ⟨wanted, -, hrefuses⟩
    · exact ⟨_, hscan⟩
    · obtain ⟨actual, peeked, -, -, rfl, -⟩ := hrefuses.refused
      exact absurd rfl (hscanned _ _ _)
  refine ⟨layout, h.divides, h.source, hline, ?_, fun call => ⟨(s.onward_perform call).line,
    (s.onward_perform call).offset_le, ?_, ?_, ?_⟩⟩
  · have hbehind : s.reader.behind.reverse.count '\n' ≤ text.toList.count '\n' := by
      rw [← h.source, Reader.source, List.count_append]
      omega
    split at hline <;> omega
  · intro reply s' token hperform hmoved hopened hpeek
    exact h.line_of_perform hcount hopened hpeek hperform hmoved
  · intro n hanswer
    obtain ⟨s', hscan⟩ := hfault call hanswer (by simp)
    exact h.line_of_openLiteral hcount hscan
  · intro n hanswer
    obtain ⟨s', hscan⟩ := hfault call hanswer (by simp)
    exact h.line_of_openComment hcount hscan

/-- Behind a literal of two lines and a comment that the end of the text ends. -/
theorem line_of_run_to_end :
    ((ofString ⟨false, true⟩ "'\n' //").run [.next, .next, .next, .peek]).2.line = 1 + 1 + 1 := by
  have hrun : (ofString ⟨false, true⟩ "'\n' //").run [.next, .next, .next, .peek] =
      ([Reply.token (some "'"), .token (some "\n"), .token (some "'"), .token none].map .ok,
        ((ofString ⟨false, true⟩ "'\n' //").run [.next, .next, .next, .peek]).2) := by
    decide +kernel
  obtain ⟨layout, hdivides, -, hline, -⟩ := line_of_run rfl hrun
  have hbody : Literal.IsBody .single ['\n'] :=
    (Literal.split?_eq_some_iff.mp (by decide : Literal.split? .single "\n' //".toList =
      some (['\n'], " //".toList))).2
  have hlayout : (Layout.more [] (.literal .single ['\n'])
      (.last [.blank ' ', .line [] false] .complete)).Divides (Text.dropMark "'\n' //".toList) :=
    ⟨rfl, trivial, hbody, ⟨rfl, ⟨by simp, rfl⟩, trivial⟩, trivial⟩
  rw [hline, if_pos ⟨by decide +kernel, by rw [Layout.unique hdivides hlayout]; rfl⟩]
  decide +kernel

end Session

end SchemaLex
