-- SUMMARY: Where a session stands in the layout of its text, and what a scan crosses from there.
import SchemaLex.Proofs.Layout.Parts
import SchemaLex.Proofs.Session.Layout

/-!
# Places

Between two scans a session stands at one of few kinds of places in the layout of its text. A scan
crosses one stretch, a gap and the lexeme or the literal body behind it, and `Place.Step` lists the
stretches there are. `StandsAt.of_scan` says that scanning does this and nothing else, and
`StandsAt.fault_of_scan` where it cannot: all that holds of the reader and the slot between calls
follows from the two.
-/

namespace SchemaLex

/-- The record of a part that makes tokens, read up to the line. A literal body is told as it is
    written, and the quote that closes it is not told. -/
def Part.trace? (line : Nat) : Part → Option Event
  | lexeme l => some (.token l.token line)
  | body text _ => some (.body (String.ofList text) line)
  | _ => none

/-- Where a session stands in the layout of its text. -/
inductive Place where
  /-- In front of a gap, with the byte order mark of the text still ahead or not. -/
  | between (marked : Bool) (layout : Layout)
  /-- Behind the quote that opens a literal. -/
  | inside (q : Quote) (body : List Char) (rest : Layout)
  /-- Behind the quote of a literal that stays open, with the gap in front of that quote. -/
  | stuck (gap : List Trivia) (q : Quote) (body : List Char)
  /-- Behind the last gap. -/
  | done (gap : List Trivia)

/-- What one scan crosses. -/
structure Stretch where
  /-- A byte order mark comes first. -/
  marked : Bool
  gap : List Trivia
  /-- The lexeme or the literal body that makes the tokens; at the end of the text there is none. -/
  last : Option Part

namespace Stretch

def parts (stretch : Stretch) : List Part :=
  Part.leading stretch.marked ++ stretch.gap.map .trivia ++ stretch.last.toList

def tokens (stretch : Stretch) : List String := stretch.last.toList.flatMap Part.tokens

/-- Only the last part of a stretch makes tokens. -/
theorem flatMap_tokens_parts (stretch : Stretch) :
    stretch.parts.flatMap Part.tokens = stretch.tokens := by
  obtain ⟨marked, gap, last⟩ := stretch
  cases marked <;> simp [parts, tokens, Part.leading, Part.tokens, Part.flatMap_tokens_trivia]

theorem flatMap_chars_parts (stretch : Stretch) :
    stretch.parts.flatMap Part.chars =
      (Part.leading stretch.marked).flatMap Part.chars ++ stretch.gap.flatMap Trivia.chars ++
        stretch.last.toList.flatMap Part.chars := by
  simp [parts, Part.flatMap_chars_trivia]

end Stretch

theorem Piece.parts_of_plain {p : Piece} (h : p.opening.quote? = none) :
    p.parts = [.lexeme p.opening] := by
  cases p with
  | literal q body => cases h
  | _ => rfl

namespace Place

/-- The characters from the place on. -/
def chars : Place → List Char
  | between marked layout => (Part.leading marked).flatMap Part.chars ++ layout.chars
  | inside q body rest => body ++ q.char :: rest.chars
  | stuck _ _ body => body
  | done _ => []

/-- The parts from the place on. -/
def parts : Place → List Part
  | between marked layout => Part.leading marked ++ layout.parts
  | inside q body rest => .body body q :: rest.parts
  | stuck .. => []
  | done _ => []

def ending : Place → Ending
  | between _ layout => layout.ending
  | inside _ _ rest => rest.ending
  | stuck _ q body => .openLiteral q body
  | done _ => .complete

def lastGap : Place → List Trivia
  | between _ layout => layout.lastGap
  | inside _ _ rest => rest.lastGap
  | stuck gap _ _ => gap
  | done gap => gap

def opened : Place → Option Quote
  | between .. => none
  | inside q _ _ => some q
  | stuck _ q _ => some q
  | done _ => none

def marked : Place → Bool
  | between marked _ => marked
  | _ => false

/-- What lies ahead of the place ends where it should. -/
def Fits : Place → Prop
  | between _ layout => layout.Fits
  | inside q body rest => Literal.IsBody q body ∧ rest.Fits
  | stuck gap q body => Trivia.IsGap gap (q.char :: body) ∧ Literal.AllProtected q body
  | done gap => Trivia.IsGap gap []

/-- The stretch that a scan crosses, and the place behind it. There is none in front of what stays
    open up to the end of the text. -/
inductive Step : Place → Stretch → Place → Prop where
  | plain {marked gap p rest} (h : p.opening.quote? = none) :
    Step (between marked (.more gap p rest)) ⟨marked, gap, some (.lexeme p.opening)⟩
      (between false rest)
  | quote {marked gap q body rest} :
    Step (between marked (.more gap (.literal q body) rest))
      ⟨marked, gap, some (.lexeme (.quote q))⟩ (inside q body rest)
  | body {q body rest} :
    Step (inside q body rest) ⟨false, [], some (.body body q)⟩ (between false rest)
  | openQuote {marked gap q body} :
    Step (between marked (.last gap (.openLiteral q body)))
      ⟨marked, gap, some (.lexeme (.quote q))⟩ (stuck gap q body)
  | finish {marked gap} :
    Step (between marked (.last gap .complete)) ⟨marked, gap, none⟩ (done gap)
  | stay {gap} : Step (done gap) ⟨false, [], none⟩ (done gap)

variable {place place' : Place} {stretch : Stretch}

/-- The parts ahead are those of the stretch and those behind it. -/
theorem Step.parts_eq (h : place.Step stretch place') :
    place.parts = stretch.parts ++ place'.parts := by
  cases h with
  | plain h => simp [parts, Stretch.parts, Layout.parts, Part.leading, Piece.parts_of_plain h]
  | quote => simp [parts, Stretch.parts, Layout.parts, Piece.parts]
  | body => simp [parts, Stretch.parts, Part.leading]
  | openQuote => simp [parts, Stretch.parts, Layout.parts, Ending.parts]
  | finish => simp [parts, Stretch.parts, Layout.parts, Ending.parts]
  | stay => simp [parts, Stretch.parts, Part.leading]

/-- The characters ahead are those of the stretch and those behind it. -/
theorem Step.chars_eq (h : place.Step stretch place') :
    place.chars = stretch.parts.flatMap Part.chars ++ place'.chars := by
  cases h with
  | @plain _ _ p _ h =>
    have hp : p.chars = p.opening.chars := by
      rw [← p.flatMap_chars_parts, Piece.parts_of_plain h]
      simp [Part.chars]
    simp [chars, Stretch.flatMap_chars_parts, Layout.chars, Part.leading, Part.chars, hp]
  | quote =>
    simp [chars, Stretch.flatMap_chars_parts, Layout.chars, Part.chars, Piece.chars, Lexeme.chars]
  | body => simp [chars, Stretch.flatMap_chars_parts, Part.leading, Part.chars]
  | openQuote =>
    simp [chars, Stretch.flatMap_chars_parts, Layout.chars, Part.chars, Ending.chars, Lexeme.chars]
  | finish => simp [chars, Stretch.flatMap_chars_parts, Layout.chars, Ending.chars]
  | stay => simp [chars, Stretch.flatMap_chars_parts, Part.leading]

/-- Where a scan finds no token, no part is left. -/
theorem Step.parts_eq_nil (h : place.Step stretch place') (htokens : stretch.tokens = []) :
    place'.parts = [] := by
  cases h with
  | finish => rfl
  | stay => rfl
  | _ => cases htokens

theorem Step.lastGap_eq (h : place.Step stretch place') : place'.lastGap = place.lastGap := by
  cases h <;> rfl

theorem Step.ending_eq (h : place.Step stretch place') : place'.ending = place.ending := by
  cases h <;> rfl

theorem Step.marked_eq (h : place.Step stretch place') :
    stretch.marked = place.marked ∧ place'.marked = false := by
  cases h <;> exact ⟨rfl, rfl⟩

theorem Step.fits (h : place.Step stretch place') (hfits : place.Fits) : place'.Fits := by
  cases h with
  | plain => exact hfits.2.2
  | quote => exact hfits.2
  | body => exact hfits.2
  | openQuote => exact hfits
  | finish => exact hfits.1
  | stay => exact hfits

/-- A stretch has characters, unless it leads to the end of the text. -/
theorem Step.chars_ne_nil (h : place.Step stretch place') (hfits : place.Fits) :
    stretch.parts.flatMap Part.chars ≠ [] ∨ place'.chars = [] := by
  rw [Stretch.flatMap_chars_parts]
  cases h with
  | @plain _ _ p _ h =>
    have hp := Piece.chars_ne_nil hfits.2.1
    rw [← p.flatMap_chars_parts, Piece.parts_of_plain h] at hp
    exact .inl fun hnil => hp (List.append_eq_nil_iff.mp hnil).2
  | quote => exact .inl (by simp [Part.chars, Lexeme.chars])
  | body => exact .inl (by simp [Part.chars])
  | openQuote => exact .inl (by simp [Part.chars, Lexeme.chars])
  | finish => exact .inr rfl
  | stay => exact .inr rfl

/-- A scan can cross a stretch from everywhere but in front of what stays open. -/
theorem exists_step_or (place : Place) :
    (∃ stretch place', place.Step stretch place') ∨
      (∃ marked gap body, place = between marked (.last gap (.openComment body))) ∨
        ∃ gap q body, place = stuck gap q body := by
  cases place with
  | between marked layout =>
    cases layout with
    | last gap e =>
      cases e with
      | complete => exact .inl ⟨_, _, .finish⟩
      | openComment body => exact .inr (.inl ⟨marked, gap, body, rfl⟩)
      | openLiteral q body => exact .inl ⟨_, _, .openQuote⟩
    | more gap p rest =>
      cases p with
      | word text => exact .inl ⟨_, _, .plain rfl⟩
      | mark c => exact .inl ⟨_, _, .plain rfl⟩
      | literal q body => exact .inl ⟨_, _, .quote⟩
  | inside q body rest => exact .inl ⟨_, _, .body⟩
  | stuck gap q body => exact .inr (.inr ⟨gap, q, body, rfl⟩)
  | done gap => exact .inl ⟨_, _, .stay⟩

end Place

namespace Session

/-- The session stands at the place. -/
structure StandsAt (s : Session) (place : Place) : Prop where
  ahead : s.reader.ahead = place.chars
  fits : place.Fits
  opened : s.opened = place.opened
  /-- The mark is dropped exactly if the place has it ahead. -/
  mark : s.reader.skipMark = if place.marked then s.reader.leap 1 else s.reader

/-- What a scan does to a session that crosses the stretch. The first token of the stretch is the
    answer, the others wait. -/
structure Crosses (s : Session) (stretch : Stretch) (s' : Session) : Prop where
  options : s'.options = s.options
  queue : s'.queue = s.queue ++ stretch.tokens.tail
  reader : s'.reader = stretch.parts.foldl (Reader.cross s.options.countLiteralLines) s.reader
  slot : s'.slot =
    (Doc.captured s.options.everyComment s.reader.skipMark stretch.gap).getLast?.or s.slot
  /-- Each comment is recorded and then the last part, none of them twice. -/
  log : s'.log = (stretch.last.bind (Part.trace? s'.line)).toList ++
    ((Doc.captured s.options.everyComment s.reader.skipMark stretch.gap).map fun doc =>
      Event.captured doc.kind doc.line).reverse ++ s.log

variable {s s' : Session} {place : Place} {gap : List Trivia} {rest : List Char}

/-! ## Gaps -/

theorem StandsAt.skipMark (h : s.StandsAt place) :
    s.reader.skipMark =
      (Part.leading place.marked).foldl (Reader.cross s.options.countLiteralLines) s.reader := by
  rw [h.mark]
  cases place.marked <;> rfl

/-- The gap that lies ahead, behind the byte order mark if there is one. -/
theorem StandsAt.gapItems {marked : Bool} {layout : Layout}
    (h : s.StandsAt (.between marked layout))
    (hlayout : layout.chars = gap.flatMap Trivia.chars ++ rest) (hgap : Trivia.IsGap gap rest)
    (hend : Trivia.read? rest = none) :
    s.reader.skipMark.ahead = gap.flatMap Trivia.chars ++ rest ∧ s.gapItems = gap := by
  have hskip : s.reader.skipMark =
      (Part.leading marked).foldl (Reader.cross s.options.countLiteralLines) s.reader := h.skipMark
  have hahead : s.reader.skipMark.ahead = gap.flatMap Trivia.chars ++ rest := by
    rw [hskip, Reader.ahead_foldl_cross h.ahead, hlayout]
  exact ⟨hahead, by rw [Session.gapItems, hahead, Trivia.gap_append hgap hend]⟩

/-- A scan passes the gap that lies ahead. -/
theorem StandsAt.skipGap {marked : Bool} {layout : Layout}
    (h : s.StandsAt (.between marked layout))
    (hlayout : layout.chars = gap.flatMap Trivia.chars ++ rest) (hgap : Trivia.IsGap gap rest)
    (hend : Trivia.read? rest = none) :
    s.Crosses ⟨marked, gap, none⟩ s.skipGap ∧ s.skipGap.reader.ahead = rest := by
  obtain ⟨hahead, hitems⟩ := h.gapItems hlayout hgap hend
  refine ⟨⟨rfl, (List.append_nil _).symm, ?_, ?_, ?_⟩, skipGap_of_gap hahead hgap hend⟩
  · change s.gapItems.foldl Reader.pass s.reader.skipMark = _
    rw [hitems, h.skipMark]
    simp [Stretch.parts, Reader.foldl_cross_trivia, Place.marked]
  · change s.gapDocs.getLast?.or s.slot = _
    rw [gapDocs, hitems]
  · change (s.gapDocs.map _).reverse ++ s.log = _
    rw [gapDocs, hitems]
    rfl

/-! ## Lexemes and Literal Bodies -/

theorem Crosses.takeLexeme {marked : Bool} (h : s.Crosses ⟨marked, gap, none⟩ s') (l : Lexeme) :
    s.Crosses ⟨marked, gap, some (.lexeme l)⟩ (s'.takeLexeme l) := by
  refine ⟨h.options, h.queue, ?_, h.slot, congrArg (_ :: ·) h.log⟩
  rw [reader_takeLexeme, h.reader]
  simp [Stretch.parts, Reader.cross]

theorem crosses_takeBody (s : Session) (q : Quote) (body : List Char) :
    s.Crosses ⟨false, [], some (.body body q)⟩ (s.takeBody q body) := by
  constructor
  case slot | log => rw [Doc.captured_nil]; rfl
  all_goals rfl

/-- Behind a stretch the session stands at the place that the step leads to. -/
theorem StandsAt.of_crosses {stretch : Stretch} {place' : Place} (h : s.StandsAt place)
    (hstep : place.Step stretch place') (hcross : s.Crosses stretch s')
    (hopened : s'.opened = place'.opened) : s'.StandsAt place' := by
  have hchars : s.reader.ahead = stretch.parts.flatMap Part.chars ++ place'.chars :=
    h.ahead.trans hstep.chars_eq
  have hahead : s'.reader.ahead = place'.chars := by
    rw [hcross.reader, Reader.ahead_foldl_cross hchars]
  refine ⟨hahead, hstep.fits h.fits, hopened, ?_⟩
  rw [hstep.marked_eq.2, if_neg Bool.false_ne_true]
  rcases hstep.chars_ne_nil h.fits with hne | hend
  · apply Reader.skipMark_of_behind_ne_nil
    rw [hcross.reader, Reader.behind_foldl_cross hchars]
    simpa using fun hnil => absurd hnil (by simpa using hne)
  · exact Reader.skipMark_of_head?_ne (by simp [hahead, hend])

/-! ## Scanning -/

/-- In front of a gap, a scan takes the lexeme at the front of what follows the gap. -/
theorem StandsAt.scan_of_front {marked : Bool} {layout : Layout} {c : Char} {cs : List Char}
    {l : Lexeme} (h : s.StandsAt (.between marked layout))
    (hlayout : layout.chars = gap.flatMap Trivia.chars ++ rest) (hgap : Trivia.IsGap gap rest)
    (hend : Trivia.read? rest = none) (hrest : rest = c :: cs)
    (hslash : c = '/' → cs.head? ≠ some '*') (hfirst : Lexeme.first c cs = l) :
    s.scan = (.ok (some l.token), s.skipGap.takeLexeme l) ∧
      s.Crosses ⟨marked, gap, some (.lexeme l)⟩ (s.skipGap.takeLexeme l) := by
  obtain ⟨hcross, hahead⟩ := h.skipGap hlayout hgap hend
  have hscan := scanLexeme_of_cons (hahead.trans hrest) hslash
  rw [hfirst] at hscan
  exact ⟨(scan_of_not_opened h.opened).trans hscan, hcross.takeLexeme l⟩

/-- A scan crosses the stretch that lies ahead and answers its first token. -/
theorem StandsAt.scan_of_step {stretch : Stretch} {place' : Place} (h : s.StandsAt place)
    (hstep : place.Step stretch place') :
    ∃ s', s.scan = (.ok stretch.tokens.head?, s') ∧ s.Crosses stretch s' ∧ s'.StandsAt place' := by
  cases hstep with
  | plain hp =>
    obtain ⟨hgap, hpiece, -⟩ := h.fits
    obtain ⟨c, cs, hrest, -, hslash, hfirst⟩ := Piece.exists_front hpiece
    obtain ⟨hscan, hcross⟩ := h.scan_of_front rfl hgap (Piece.read?_chars_append hpiece) hrest
      (fun hc => (hslash hc).2) hfirst
    exact ⟨_, hscan, hcross, h.of_crosses (.plain hp) hcross hp⟩
  | quote =>
    obtain ⟨hgap, hpiece, -⟩ := h.fits
    obtain ⟨c, cs, hrest, -, hslash, hfirst⟩ := Piece.exists_front hpiece
    obtain ⟨hscan, hcross⟩ := h.scan_of_front rfl hgap (Piece.read?_chars_append hpiece) hrest
      (fun hc => (hslash hc).2) hfirst
    exact ⟨_, hscan, hcross, h.of_crosses .quote hcross rfl⟩
  | @body q body rest =>
    have hsplit := Literal.split?_eq_some_iff.mpr ⟨h.ahead, h.fits.1⟩
    have hcross := crosses_takeBody s q body
    exact ⟨_, (scan_of_opened h.opened).trans (scanBody_of_some hsplit), hcross,
      h.of_crosses .body hcross rfl⟩
  | @openQuote marked gap q body =>
    obtain ⟨hgap, hopen⟩ := h.fits
    obtain ⟨hscan, hcross⟩ := h.scan_of_front rfl hgap (Ending.read?_chars hopen) rfl
      (fun hc => absurd hc q.char_ne_slash) (Lexeme.first_quote q body)
    exact ⟨_, hscan, hcross, h.of_crosses .openQuote hcross rfl⟩
  | @finish marked gap =>
    obtain ⟨hgap, hend⟩ := h.fits
    obtain ⟨hcross, hahead⟩ := h.skipGap rfl hgap (Ending.read?_chars hend)
    exact ⟨_, (scan_of_not_opened h.opened).trans (scanLexeme_of_end hahead), hcross,
      h.of_crosses .finish hcross h.opened⟩
  | stay =>
    have hahead : s.reader.ahead = [] := h.ahead
    have hskip := skipGap_of_end hahead
    have hscan := scanLexeme_of_end (s := s) (hskip.symm ▸ hahead)
    rw [hskip] at hscan
    refine ⟨s, (scan_of_not_opened h.opened).trans hscan, ?_, h⟩
    constructor
    case queue => exact (List.append_nil _).symm
    case slot | log => rw [Doc.captured_nil]; rfl
    all_goals rfl

/-- In front of a block comment that stays open, a scan fails at the end of the text. -/
theorem StandsAt.scan_of_openComment {marked : Bool} {body : List Char}
    (h : s.StandsAt (.between marked (.last gap (.openComment body)))) :
    ∃ s', s.scan = (.error (.openComment (s.line +
      ((Stretch.parts ⟨marked, gap, none⟩).map
        (Part.lineEnds s.options.countLiteralLines)).sum + body.count '\n')), s') := by
  obtain ⟨hgap, hopen⟩ := h.fits
  have hend : Trivia.read? (Ending.openComment body).chars = none := Ending.read?_chars hopen
  obtain ⟨hcross, hahead⟩ := h.skipGap rfl hgap hend
  have hchars : s.reader.ahead =
      (Stretch.parts ⟨marked, gap, none⟩).flatMap Part.chars ++
        (Ending.openComment body).chars := by
    rw [h.ahead, Stretch.flatMap_chars_parts]
    simp [Place.chars, Layout.chars]
  have hline : s.passOpenComment.line = s.line + ((Stretch.parts ⟨marked, gap, none⟩).map
      (Part.lineEnds s.options.countLiteralLines)).sum + body.count '\n' := by
    change s.skipGap.reader.line +
      (s.skipGap.reader.ahead.take s.skipGap.reader.ahead.length).count '\n' = _
    rw [List.take_length, hahead, hcross.reader, Reader.line_foldl_cross hchars]
    simp [Ending.chars, line]
  rw [← hline]
  exact ⟨_, (scan_of_not_opened h.opened).trans (scanLexeme_of_openComment hahead)⟩

/-- Behind the quote of a literal that stays open, a scan fails on the line of the session. -/
theorem StandsAt.scan_of_stuck {q : Quote} {body : List Char}
    (h : s.StandsAt (.stuck gap q body)) : ∃ s', s.scan = (.error (.openLiteral s.line), s') := by
  have hsplit : Literal.split? q s.reader.ahead = none := by
    rw [h.ahead]
    exact Literal.split?_eq_none_iff.mpr h.fits.2
  exact ⟨_, (scan_of_opened h.opened).trans (scanBody_of_none hsplit)⟩

/-- A scan that brings no fault has crossed a stretch. -/
theorem StandsAt.of_scan {token : Option String} (h : s.StandsAt place)
    (hscan : s.scan = (.ok token, s')) :
    ∃ stretch place', place.Step stretch place' ∧ token = stretch.tokens.head? ∧
      s.Crosses stretch s' ∧ s'.StandsAt place' := by
  rcases place.exists_step_or with
    ⟨stretch, place', hstep⟩ | ⟨marked, gap, body, rfl⟩ | ⟨gap, q, body, rfl⟩
  · obtain ⟨t, hscan', hcross, hstands⟩ := h.scan_of_step hstep
    obtain ⟨htoken, rfl⟩ := Prod.mk.inj (hscan.symm.trans hscan')
    exact ⟨stretch, place', hstep, Except.ok.inj htoken, hcross, hstands⟩
  · obtain ⟨t, hscan'⟩ := h.scan_of_openComment
    cases hscan.symm.trans hscan'
  · obtain ⟨t, hscan'⟩ := h.scan_of_stuck
    cases hscan.symm.trans hscan'

/-- A scan brings a fault only in front of what stays open up to the end of the text. -/
theorem StandsAt.fault_of_scan {fault : Fault} (h : s.StandsAt place)
    (hscan : s.scan = (.error fault, s')) :
    (∃ marked gap body, place = .between marked (.last gap (.openComment body)) ∧
      fault = .openComment (s.line + ((Stretch.parts ⟨marked, gap, none⟩).map
        (Part.lineEnds s.options.countLiteralLines)).sum + body.count '\n')) ∨
      ∃ gap q body, place = .stuck gap q body ∧ fault = .openLiteral s.line := by
  rcases place.exists_step_or with
    ⟨stretch, place', hstep⟩ | ⟨marked, gap, body, rfl⟩ | ⟨gap, q, body, rfl⟩
  · obtain ⟨t, hscan', -⟩ := h.scan_of_step hstep
    cases hscan.symm.trans hscan'
  · obtain ⟨t, hscan'⟩ := h.scan_of_openComment
    have hfault := (Prod.mk.inj (hscan.symm.trans hscan')).1
    exact .inl ⟨marked, gap, body, rfl, Except.error.inj hfault⟩
  · obtain ⟨t, hscan'⟩ := h.scan_of_stuck
    have hfault := (Prod.mk.inj (hscan.symm.trans hscan')).1
    exact .inr ⟨gap, q, body, rfl, Except.error.inj hfault⟩

/-! ## The Start of a Text -/

/-- A new session stands in front of the layout of its text. -/
theorem standsAt_ofString (options : Options) {text : String} {layout : Layout}
    (h : layout.Divides (Text.dropMark text.toList)) :
    (ofString options text).StandsAt
      (.between (text.toList.head? == some '\uFEFF') layout) := by
  refine ⟨?_, h.fits, rfl, rfl⟩
  change text.toList = (Part.leading _).flatMap Part.chars ++ layout.chars
  rw [h.chars]
  cases text.toList with
  | nil => rfl
  | cons c cs =>
    by_cases hc : c = '\uFEFF'
    · subst hc
      rfl
    · simp [Text.dropMark, hc, Part.leading]

end Session

end SchemaLex
