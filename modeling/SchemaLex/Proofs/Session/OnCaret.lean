-- SUMMARY: No call goes wrong on a caret: its answers are those of the session.
import SchemaLex.Proofs.Caret.Gap
import SchemaLex.Proofs.Session.History
import SchemaLex.Session.OnCaret

/-!
# No Call Goes Wrong

A session on a caret answers every call as the session does, so it has an answer to every call. What
carries this is `Session.Within`: the session stands in its text, can count the lines to come, and
has a line below the comment in its slot. Each scan and each call keeps it, and has the answer that
`Answers` asks for. What holds of the answers of sessions so holds on a caret too, where the two
ways to tell documentation scan comments differently: `seen?_everyComment`.
-/

namespace SchemaLex

theorem Reader.toEnd_caret (r : Reader) : r.toEnd.caret = r.caret.toEnd := by
  simp [caret, Caret.toEnd, toEnd, leap, source]

/-- A reader stands at the edge of a character. -/
theorem Reader.isEdge_offset_caret (r : Reader) : Text.IsEdge r.source r.caret.offset :=
  ⟨r.behind.reverse, r.ahead, rfl, rfl⟩

theorem Reader.source_foldl_pass (ts : List Trivia) (r : Reader) :
    (ts.foldl Reader.pass r).source = r.source := by
  induction ts generalizing r with
  | nil => rfl
  | cons t ts ih => exact (ih (r.pass t)).trans (r.source_pass t)

/-- The answers to a sequence of calls, each with the line and the place behind it. -/
def CaretSession.seen? (s : CaretSession) :
    List Call → Option (List (Except Fault Reply × Nat × Nat))
  | [] => some []
  | call :: calls => do
    let (answer, s) ← s.perform? call
    let later ← s.seen? calls
    return (answer, s.caret.line, s.caret.offset) :: later

namespace Session

variable {α : Type} {n : Nat} {cs : List Char} {s s' : Session}

/-- The session with its place as a caret. -/
def onCaret (s : Session) : CaretSession :=
  ⟨s.options, s.reader.caret, s.queue, s.opened, s.slot, s.log⟩

@[simp] theorem options_onCaret (s : Session) : s.onCaret.options = s.options := rfl

@[simp] theorem caret_onCaret (s : Session) : s.onCaret.caret = s.reader.caret := rfl

@[simp] theorem queue_onCaret (s : Session) : s.onCaret.queue = s.queue := rfl

@[simp] theorem opened_onCaret (s : Session) : s.onCaret.opened = s.opened := rfl

@[simp] theorem slot_onCaret (s : Session) : s.onCaret.slot = s.slot := rfl

/-- The session stands in the text `cs`, its reader cannot come to a line beyond `n`, and there is a
    line below the comment in the slot. -/
structure Within (cs : List Char) (n : Nat) (s : Session) : Prop where
  source : s.reader.source = cs
  reader : s.reader.Within n
  slot : ∀ d ∈ s.slot, d.line < Caret.maxLine

/-- What is found on a caret is the answer of a session, and the session behind it is still within
    its text and lines. -/
structure Answers (cs : List Char) (n : Nat) (found : Option (α × CaretSession))
    (answered : α × Session) : Prop where
  eq : found = some (answered.1, answered.2.onCaret)
  within : answered.2.Within cs n

/-- A change that leaves the reader alone and at most empties the slot. -/
theorem Within.of_reader (h : s.Within cs n) (hreader : s'.reader = s.reader)
    (hslot : s'.slot = s.slot ∨ s'.slot = none) : s'.Within cs n := by
  refine ⟨hreader ▸ h.source, hreader ▸ h.reader, ?_⟩
  rcases hslot with hsame | hnone
  · exact hsame ▸ h.slot
  · simp [hnone]

theorem within_ofString (options : Options) (text : String) :
    (ofString options text).Within text.toList (text.toList.count '\n' + 2) :=
  ⟨rfl, Reader.within_ofChars _, by simp [ofString]⟩

theorem answers_abort (h : s.Within cs n) (fault : Fault) (event : Event) :
    Answers cs n (some (s.onCaret.abort (α := α) fault event)) (s.abort fault event) := by
  refine ⟨?_, ?_, h.reader.toEnd, by simp [abort]⟩
  · simp [CaretSession.abort, abort, onCaret, Reader.toEnd_caret]
  · exact s.reader.source_toEnd.trans h.source

/-! ## Scanning -/

theorem answers_scanBody (hn : n ≤ Caret.maxLine) (h : s.Within cs n) (q : Quote) :
    Answers cs n (s.onCaret.scanBody? q) (s.scanBody q) := by
  rw [CaretSession.scanBody?, caret_onCaret, options_onCaret]
  cases hsplit : Literal.split? q s.reader.ahead with
  | none =>
    rw [Reader.body?_caret_of_none _ hsplit, scanBody_of_none hsplit]
    exact answers_abort h _ _
  | some found =>
    obtain ⟨body, rest⟩ := found
    rw [Reader.body?_caret_of_some (h.reader.mono hn) _ hsplit, scanBody_of_some hsplit]
    refine ⟨rfl, ?_⟩
    unfold takeBody
    cases s.options.countLiteralLines with
    | true => exact ⟨(s.reader.source_advance _).trans h.source, h.reader.advance _, h.slot⟩
    | false => exact ⟨(s.reader.source_leap _).trans h.source, h.reader.leap _, h.slot⟩

/-- The documentation of a gap has a line below, and the caret passes the gap. -/
theorem gap?_skipMark_caret (hw : s.reader.Within Caret.maxLine) :
    (∀ d ∈ s.gapDocs, d.line < Caret.maxLine) ∧
      s.reader.skipMark.caret.gap? s.options.everyComment =
        (s.skipGap.reader.caret.gap? s.options.everyComment).map
          fun later => (s.gapDocs ++ later.1, later.2) :=
  Reader.gap?_caret hw.skipMark (Trivia.flatMap_chars_gap _).symm (Trivia.isGap_gap _)
    (Trivia.read?_gap _)

/-- Nothing but documentation with a line below takes the slot. -/
theorem Within.skipGap (hn : n ≤ Caret.maxLine) (h : s.Within cs n) : s.skipGap.Within cs n := by
  have hahead := (Trivia.flatMap_chars_gap s.reader.skipMark.ahead).symm
  have hgap := Trivia.isGap_gap s.reader.skipMark.ahead
  obtain ⟨hlines, -⟩ := gap?_skipMark_caret (h.reader.mono hn)
  refine ⟨?_, h.reader.skipMark.foldl_pass hahead hgap, ?_⟩
  · exact (Reader.source_foldl_pass _ _).trans (s.reader.source_skipMark.trans h.source)
  · intro d hd
    change d ∈ s.gapDocs.getLast?.or s.slot at hd
    cases hlast : s.gapDocs.getLast? with
    | none => exact h.slot d (by simpa [hlast] using hd)
    | some e =>
      obtain rfl : e = d := by simpa [hlast] using hd
      exact hlines e (List.mem_of_getLast? hlast)

theorem Within.passOpenComment (hn : n ≤ Caret.maxLine) (h : s.Within cs n) :
    s.passOpenComment.Within cs n :=
  have hpassed := h.skipGap hn
  ⟨(Reader.source_advance _ _).trans hpassed.source, hpassed.reader.advance _, hpassed.slot⟩

theorem read?_ahead_skipGap (s : Session) : Trivia.read? s.skipGap.reader.ahead = none := by
  rw [ahead_skipGap]
  exact Trivia.read?_gap _

/-- A gap leads the caret where it leads the session. -/
theorem skipGap?_onCaret (hn : n ≤ Caret.maxLine) (h : s.Within cs n) :
    s.onCaret.skipGap? =
      if Trivia.OpensBlock s.skipGap.reader.ahead then some (true, s.passOpenComment.onCaret)
      else some (false, s.skipGap.onCaret) := by
  have hw := h.reader.mono hn
  obtain ⟨-, hgap⟩ := gap?_skipMark_caret hw
  have hend := s.read?_ahead_skipGap
  simp only [CaretSession.skipGap?, caret_onCaret, options_onCaret, Reader.skipMark?_caret hw,
    Option.bind_eq_bind, Option.bind_some, hgap]
  by_cases hopens : Trivia.OpensBlock s.skipGap.reader.ahead
  · obtain ⟨body, hbody⟩ := hopens
    rw [← hbody] at hend
    have hmarkless : Trivia.NoClosingMark body :=
      Trivia.splitBlock?_eq_none_iff.mp (Option.map_eq_none_iff.mp hend)
    rw [if_pos ⟨body, hbody⟩,
      Reader.gap?_caret_of_open ((h.skipGap hn).reader.mono hn) hbody.symm hmarkless]
    simp only [Option.map_some, Option.bind_some, List.append_nil]
    rfl
  · rw [if_neg hopens, Reader.gap?_caret_of_end hend hopens]
    simp only [Option.map_some, Option.bind_some, List.append_nil]
    rfl

theorem answers_scanLexeme (hn : n ≤ Caret.maxLine) (h : s.Within cs n) :
    Answers cs n s.onCaret.scanLexeme? s.scanLexeme := by
  have hpassed := h.skipGap hn
  rw [CaretSession.scanLexeme?, skipGap?_onCaret hn h]
  by_cases hopens : Trivia.OpensBlock s.skipGap.reader.ahead
  · rw [if_pos hopens]
    obtain ⟨body, hbody⟩ := hopens
    rw [scanLexeme_of_openComment hbody.symm]
    exact answers_abort (h.passOpenComment hn) _ _
  · rw [if_neg hopens]
    cases hahead : s.skipGap.reader.ahead with
    | nil =>
      rw [scanLexeme_of_end hahead]
      exact ⟨by simp [hahead], hpassed⟩
    | cons c rest =>
      have hatEnd : s.skipGap.reader.caret.atEnd = false := by simp [hahead]
      have hcurrent : s.skipGap.reader.caret.current = c := by
        rw [Reader.current_caret, hahead]
        rfl
      have hlexeme := Reader.lexeme?_caret (hpassed.reader.mono hn) hahead
      have hquote := Lexeme.quote?_first c rest
      rw [scanLexeme_of_cons hahead (Trivia.head?_ne_star_of_not_opensBlock (hahead ▸ hopens))]
      refine ⟨?_, (Reader.source_advance _ _).trans hpassed.source, hpassed.reader.advance _,
        hpassed.slot⟩
      simp only [Option.bind_eq_bind, Option.bind_some, Bool.false_eq_true, ↓reduceIte, hatEnd,
        caret_onCaret, hlexeme, hcurrent, ← hquote]
      rfl

theorem answers_scan (hn : n ≤ Caret.maxLine) (h : s.Within cs n) :
    Answers cs n s.onCaret.scan? s.scan := by
  rw [CaretSession.scan?, opened_onCaret]
  cases hopened : s.opened with
  | none =>
    rw [scan_of_not_opened hopened]
    exact answers_scanLexeme hn h
  | some q =>
    rw [scan_of_opened hopened]
    exact answers_scanBody hn h q

/-! ## Calls -/

theorem answers_next (hn : n ≤ Caret.maxLine) (h : s.Within cs n) :
    Answers cs n s.onCaret.next? s.next := by
  rw [CaretSession.next?, next, queue_onCaret]
  cases s.queue with
  | nil => exact answers_scan hn h
  | cons token rest => exact ⟨rfl, h.of_reader rfl (.inl rfl)⟩

theorem answers_peek (hn : n ≤ Caret.maxLine) (h : s.Within cs n) :
    Answers cs n s.onCaret.peek? s.peek := by
  rw [CaretSession.peek?, peek, queue_onCaret]
  cases s.queue with
  | nil =>
    obtain ⟨heq, hwithin⟩ := answers_scan hn h
    rcases hscan : s.scan with ⟨fault | _ | token, scanned⟩
    all_goals
      rw [hscan] at heq hwithin
      dsimp only
      rw [heq]
      exact ⟨rfl, hwithin.of_reader rfl (.inl rfl)⟩
  | cons token rest => exact ⟨rfl, h⟩

theorem answers_accept (hn : n ≤ Caret.maxLine) (h : s.Within cs n) (wanted : String) :
    Answers cs n (s.onCaret.accept? wanted) (s.accept wanted) := by
  obtain ⟨heq, hwithin⟩ := answers_peek hn h
  rw [CaretSession.accept?, accept, heq]
  generalize s.peek = answered at hwithin ⊢
  obtain ⟨fault | actual, peeked⟩ := answered
  · exact ⟨rfl, hwithin⟩
  · by_cases hactual : actual = some wanted
    · simp only [hactual, Option.map_some, ↓reduceIte]
      exact ⟨rfl, hwithin.of_reader rfl (.inl rfl)⟩
    · simp only [hactual, Option.map_some, ↓reduceIte]
      exact ⟨rfl, hwithin⟩

theorem answers_require (hn : n ≤ Caret.maxLine) (h : s.Within cs n) (wanted : String) :
    Answers cs n (s.onCaret.require? wanted) (s.require wanted) := by
  obtain ⟨heq, hwithin⟩ := answers_peek hn h
  rw [CaretSession.require?, require, heq]
  generalize s.peek = answered at hwithin ⊢
  obtain ⟨fault | actual, peeked⟩ := answered
  · exact ⟨rfl, hwithin⟩
  · by_cases hactual : actual = some wanted
    · simp only [hactual, Option.map_some, ↓reduceIte]
      exact ⟨rfl, hwithin.of_reader rfl (.inl rfl)⟩
    · simp only [hactual, Option.map_some, ↓reduceIte]
      exact answers_abort hwithin _ _

theorem answers_takeDoc (h : s.Within cs n) (rule : Doc → Bool) :
    Answers cs n (some (s.onCaret.takeDoc rule)) (s.takeDoc rule) := by
  refine ⟨rfl, h.of_reader rfl ?_⟩
  rcases htake : s.takeDoc rule with ⟨_ | text, s'⟩
  · exact .inl (congrArg slot (takeDoc_of_none htake))
  · obtain ⟨doc, -, -, -, -, hnone⟩ := takeDoc_of_some htake
    exact .inr hnone

theorem answers_takeLeading (h : s.Within cs n) :
    Answers cs n s.onCaret.takeLeading? s.takeLeading := by
  have hbelow : s.slot.all fun doc => !doc.hasText || doc.line + 1 ≤ Caret.maxLine := by
    cases hslot : s.slot with
    | none => rfl
    | some doc =>
      have hline : doc.line + 1 ≤ Caret.maxLine := h.slot doc hslot
      rw [Option.all_some, decide_eq_true hline, Bool.or_true]
  rw [CaretSession.takeLeading?, slot_onCaret, if_pos hbelow]
  exact answers_takeDoc h _

theorem answers_takeTrailing (hn : n ≤ Caret.maxLine) (h : s.Within cs n) (line : Nat) :
    Answers cs n (s.onCaret.takeTrailing? line) (s.takeTrailing line) := by
  rw [CaretSession.takeTrailing?, takeTrailing, slot_onCaret]
  by_cases hwaits : s.slot.any Doc.hasText
  · simp only [hwaits, ↓reduceIte]
    obtain ⟨heq, hwithin⟩ := answers_takeDoc h (trails line)
    rw [Option.some.inj heq]
    exact ⟨rfl, hwithin⟩
  · simp only [hwaits, Bool.false_eq_true, ↓reduceIte]
    obtain ⟨heq, hwithin⟩ := answers_peek hn h
    rw [heq]
    generalize s.peek = answered at hwithin ⊢
    obtain ⟨fault | actual, peeked⟩ := answered
    · exact ⟨rfl, hwithin⟩
    · obtain ⟨hdoc, htaken⟩ := answers_takeDoc hwithin (trails line)
      simp only [Option.map_some, Option.some.inj hdoc]
      exact ⟨rfl, htaken⟩

/-- A call has the answer of the session, and leads to a session that is still within its lines. -/
theorem answers_perform (hn : n ≤ Caret.maxLine) (h : s.Within cs n) (call : Call) :
    Answers cs n (s.onCaret.perform? call) (s.perform call) := by
  cases call with
  | next =>
    obtain ⟨heq, hwithin⟩ := answers_next hn h
    exact ⟨by rw [CaretSession.perform?, heq]; rfl, hwithin⟩
  | peek =>
    obtain ⟨heq, hwithin⟩ := answers_peek hn h
    exact ⟨by rw [CaretSession.perform?, heq]; rfl, hwithin⟩
  | enqueue token => exact ⟨rfl, h.of_reader rfl (.inl rfl)⟩
  | accept wanted =>
    obtain ⟨heq, hwithin⟩ := answers_accept hn h wanted
    exact ⟨by rw [CaretSession.perform?, heq]; rfl, hwithin⟩
  | require wanted =>
    obtain ⟨heq, hwithin⟩ := answers_require hn h wanted
    exact ⟨by rw [CaretSession.perform?, heq]; rfl, hwithin⟩
  | leading =>
    obtain ⟨heq, hwithin⟩ := answers_takeLeading h
    exact ⟨by rw [CaretSession.perform?, heq]; rfl, hwithin⟩
  | trailing line =>
    obtain ⟨heq, hwithin⟩ := answers_takeTrailing hn h line
    exact ⟨by rw [CaretSession.perform?, heq]; rfl, hwithin⟩

/-- The same for a sequence of calls. -/
theorem answers_run (hn : n ≤ Caret.maxLine) (h : s.Within cs n) (calls : List Call) :
    Answers cs n (s.onCaret.run? calls) (s.run calls) := by
  induction calls generalizing s with
  | nil => exact ⟨rfl, h⟩
  | cons call calls ih =>
    obtain ⟨heq, hwithin⟩ := answers_perform hn h call
    obtain ⟨hlater, hlast⟩ := ih hwithin
    refine ⟨?_, hlast⟩
    rw [CaretSession.run?, heq]
    simp [hlater, run]

/-- The lines of a text with few enough newlines, and two more, can be counted. -/
theorem add_two_le_maxLine {newlines : Nat} (h : newlines ≤ UInt32.size - 3) :
    newlines + 2 ≤ Caret.maxLine := by
  rw [UInt32.size] at h
  rw [Caret.maxLine, UInt32.size]
  omega

/-- No call goes wrong in a text with few enough newlines: every place that is cut at is the edge of
    a character and has an offset, the line counter is at most two lines beyond the newlines, and so
    no line that is computed is too great. The answers are those of the session. -/
theorem calls_never_go_wrong (options : Options) {text : String}
    (h : text.toList.count '\n' ≤ UInt32.size - 3) (calls : List Call) :
    ∃ s, (CaretSession.ofString options text).run? calls =
        some (((ofString options text).run calls).1, s) ∧
      s = ((ofString options text).run calls).2.onCaret ∧
      s.caret.text = text.toList ∧ Text.IsEdge text.toList s.caret.offset ∧
      s.caret.line ≤ text.toList.count '\n' + 2 := by
  obtain ⟨heq, hwithin⟩ := answers_run (add_two_le_maxLine h) (within_ofString options text) calls
  have hedge := ((ofString options text).run calls).2.reader.isEdge_offset_caret
  rw [hwithin.source] at hedge
  exact ⟨_, heq, rfl, hwithin.source, hedge, hwithin.reader.line_le⟩

/-- Characters of two bytes in a comment, in a literal and in a word. -/
theorem calls_never_go_wrong_umlaut :
    "/// ä\n'ö\n' ü".toList.count '\n' ≤ UInt32.size - 3 ∧
      ∃ s, (CaretSession.ofString ⟨false, true⟩ "/// ä\n'ö\n' ü").run?
          [.leading, .next, .leading, .next, .next, .peek, .next, .next] =
        some ([.ok (.doc none), .ok (.token (some "'")), .ok (.doc (some "ä")),
          .ok (.token (some "ö\n")), .ok (.token (some "'")), .ok (.token (some "ü")),
          .ok (.token (some "ü")), .ok (.token none)], s) ∧
        Text.IsEdge "/// ä\n'ö\n' ü".toList s.caret.offset ∧ s.caret.line ≤ 4 := by
  have hfew : "/// ä\n'ö\n' ü".toList.count '\n' ≤ UInt32.size - 3 := by decide
  obtain ⟨s, hrun, -, -, hedge, hline⟩ := calls_never_go_wrong ⟨false, true⟩ hfew
    [.leading, .next, .leading, .next, .next, .peek, .next, .next]
  have hanswers : ((ofString ⟨false, true⟩ "/// ä\n'ö\n' ü").run
      [.leading, .next, .leading, .next, .next, .peek, .next, .next]).1 =
        [.ok (.doc none), .ok (.token (some "'")), .ok (.doc (some "ä")),
          .ok (.token (some "ö\n")), .ok (.token (some "'")), .ok (.token (some "ü")),
          .ok (.token (some "ü")), .ok (.token none)] := by
    decide +kernel
  rw [hanswers] at hrun
  exact ⟨hfew, s, hrun, hedge, hline⟩

/-! ## Documentation on a Caret -/

/-- On a caret a caller sees what it sees of the session. -/
theorem seen?_onCaret (hn : n ≤ Caret.maxLine) (h : s.Within cs n) (calls : List Call) :
    s.onCaret.seen? calls = some (s.seen calls) := by
  induction calls generalizing s with
  | nil => rfl
  | cons call calls ih =>
    obtain ⟨heq, hwithin⟩ := answers_perform hn h call
    rw [CaretSession.seen?, heq]
    simp only [Option.bind_eq_bind, Option.bind_some, ih hwithin]
    rfl

/-- What counts as documentation decides how the caret passes a comment, and still changes nothing
    that a caller sees, as long as no call asks for a comment. -/
theorem seen?_everyComment (countLiteralLines : Bool) {text : String} {calls : List Call}
    (h : text.toList.count '\n' ≤ UInt32.size - 3) (hcalls : ∀ call ∈ calls, ¬ call.IsLookup) :
    ∃ answers,
      (CaretSession.ofString ⟨true, countLiteralLines⟩ text).seen? calls = some answers ∧
        (CaretSession.ofString ⟨false, countLiteralLines⟩ text).seen? calls = some answers := by
  have hn := add_two_le_maxLine h
  have hsame : (ofString ⟨true, countLiteralLines⟩ text).SameButDocs
      (ofString ⟨false, countLiteralLines⟩ text) := ⟨rfl, rfl, rfl, rfl⟩
  have hevery := seen?_onCaret hn (within_ofString ⟨true, countLiteralLines⟩ text) calls
  have hmarked := seen?_onCaret hn (within_ofString ⟨false, countLiteralLines⟩ text) calls
  exact ⟨_, hevery, by rw [hsame.seen_eq hcalls]; exact hmarked⟩

end Session

end SchemaLex
