-- SUMMARY: How the lines of a text end makes no difference to a session over it.
import SchemaLex.Proofs.Doc.Returns
import SchemaLex.Proofs.Session.Course
import SchemaLex.Proofs.Session.Passage

/-!
# Sessions over Carriage Returns

Outside literals a carriage return in front of a newline is white space like the newline, and part
of no lexeme. So a session over the text with returns keeps in step with the session over the text,
each one a stretch further with every scan: `lockstep_inReturns`. In a literal a carriage return
would be part of the value, so no literal may reach over the end of a line.
-/

namespace SchemaLex

/-! ## Literal Bodies -/

/-- The bodies of the literals of a layout, that of a literal that stays open included. -/
def Layout.bodies : Layout → List (List Char)
  | last _ (.openLiteral _ body) => [body]
  | last _ _ => []
  | more _ (.literal _ body) rest => body :: rest.bodies
  | more _ _ rest => rest.bodies

/-- The bodies of the literals that a session has not read at the place. -/
def Place.bodies : Place → List (List Char)
  | between _ layout => layout.bodies
  | inside _ body rest => body :: rest.bodies
  | stuck _ _ body => [body]
  | done _ => []

/-- A stretch adds no literal to those ahead. -/
theorem Place.Step.bodies_subset {place place' : Place} {stretch : Stretch}
    (h : place.Step stretch place') : place'.bodies ⊆ place.bodies := by
  cases h with
  | @plain _ _ p _ h =>
    cases p with
    | literal q body => cases h
    | _ => exact List.Subset.refl _
  | body => exact List.subset_cons_self _ _
  | finish => exact List.nil_subset _
  | _ => exact List.Subset.refl _

/-! ## Lexemes -/

theorem Lexeme.first_withReturns (c : Char) (cs : List Char) :
    first c (Text.withReturns cs) = first c cs := by
  unfold first
  rw [Text.takeWhile_withReturns (by decide) (by decide)]

/-- No lexeme reaches over the end of a line. -/
theorem Lexeme.newline_not_mem_first {c : Char} (hc : c ≠ '\n') (cs : List Char) :
    '\n' ∉ (first c cs).chars := by
  unfold first
  split
  · next q hq =>
    rw [Quote.ofChar?_eq_some_iff] at hq
    simpa [chars, hq] using hq ▸ hc.symm
  · split
    · simpa [chars] using hc.symm
    · intro hmem
      rcases List.mem_cons.mp hmem with heq | hmem
      · exact hc heq.symm
      · exact absurd (List.mem_takeWhile_imp hmem) (by decide)

namespace Session

/-! ## Two Sessions -/

/-- The session stands at a place of its text, and no literal ahead of it reaches over the end of a
    line. -/
def LiteralsOnLines (s : Session) : Prop :=
  ∃ place, s.StandsAt place ∧ ∀ body ∈ place.bodies, '\n' ∉ body

/-- The second session stands where the first one does, in the text with returns. -/
structure InReturns (s t : Session) : Prop where
  options : t.options = s.options
  queue : t.queue = s.queue
  opened : t.opened = s.opened
  slot : t.slot = s.slot
  reader : t.reader = s.reader.withReturns

variable {s s' t : Session}

theorem LiteralsOnLines.of_ended (h : s.Ended) : s.LiteralsOnLines := by
  refine ⟨.done [], ⟨h.ahead, trivial, h.opened, ?_⟩, by simp [Place.bodies]⟩
  exact Reader.skipMark_of_head?_ne (by simp [h.ahead])

theorem LiteralsOnLines.congr (h : s.LiteralsOnLines) (hreader : s'.reader = s.reader)
    (hopened : s'.opened = s.opened) : s'.LiteralsOnLines := by
  obtain ⟨place, hstands, hbodies⟩ := h
  exact ⟨place, hstands.congr hreader hopened, hbodies⟩

theorem LiteralsOnLines.scan (h : s.LiteralsOnLines) (hqueue : s.queue = []) :
    s.scan.2.LiteralsOnLines := by
  obtain ⟨place, hstands, hbodies⟩ := h
  rcases hscan : s.scan with ⟨fault | token, s'⟩
  · exact .of_ended (ended_of_scan hqueue hscan (by simp))
  · obtain ⟨stretch, place', hstep, -, -, hstands'⟩ := hstands.of_scan hscan
    exact ⟨place', hstands', fun body hbody => hbodies body (hstep.bodies_subset hbody)⟩

/-! ## Scanning -/

namespace InReturns

theorem abort {α : Type} (h : InReturns s t) (fault : Fault) (event : Event) :
    Alike InReturns (s.abort fault event : Except Fault α × Session) (t.abort fault event) := by
  refine .intro _ ⟨h.options, rfl, rfl, rfl, ?_⟩
  rw [h.reader]
  exact s.reader.toEnd_withReturns

theorem skipGap (h : InReturns s t) : InReturns s.skipGap t.skipGap := by
  have hskip : t.reader.skipMark = s.reader.skipMark.withReturns := by
    rw [h.reader, Reader.skipMark_withReturns]
  have hgap : Trivia.gap t.reader.skipMark.ahead =
      (s.gapItems.flatMap Trivia.withReturns,
        Text.withReturns (Trivia.gap s.reader.skipMark.ahead).2) := by
    rw [hskip]
    exact Trivia.gap_withReturns _
  have hitems : t.gapItems = s.gapItems.flatMap Trivia.withReturns := congrArg Prod.fst hgap
  have hahead := (Trivia.flatMap_chars_gap s.reader.skipMark.ahead).symm
  have hfits := Trivia.isGap_gap s.reader.skipMark.ahead
  have hdocs : t.gapDocs = s.gapDocs := by
    rw [gapDocs, hitems, hskip, h.options]
    exact Doc.captured_withReturns _ hahead hfits
  refine ⟨h.options, h.queue, h.opened, ?_, ?_⟩
  · change t.gapDocs.getLast?.or t.slot = s.gapDocs.getLast?.or s.slot
    rw [hdocs, h.slot]
  · change t.gapItems.foldl Reader.pass t.reader.skipMark = _
    rw [hitems, hskip]
    exact Reader.foldl_pass_withReturns hahead hfits

theorem takeLexeme (h : InReturns s t) {l : Lexeme} {rest : List Char}
    (hahead : s.reader.ahead = l.chars ++ rest) (hl : '\n' ∉ l.chars) :
    InReturns (s.takeLexeme l) (t.takeLexeme l) := by
  refine ⟨h.options, h.queue, rfl, h.slot, ?_⟩
  have hadvance := Reader.advance_withReturns hahead
  rw [Text.withReturns_eq_self hl] at hadvance
  rw [reader_takeLexeme, reader_takeLexeme, h.reader, hadvance]

theorem passOpenComment (h : InReturns s t) : InReturns s.passOpenComment t.passOpenComment := by
  have hskip := h.skipGap
  refine ⟨h.options, h.queue, h.opened, hskip.slot, ?_⟩
  change t.skipGap.reader.advance t.skipGap.reader.ahead.length = _
  rw [hskip.reader]
  exact Reader.advance_withReturns (List.append_nil _).symm

theorem line (h : InReturns s t) : t.line = s.line := by
  rw [Session.line, h.reader]
  rfl

theorem scanLexeme (h : InReturns s t) : Alike InReturns s.scanLexeme t.scanLexeme := by
  have hskip := h.skipGap
  have hahead' : t.skipGap.reader.ahead = Text.withReturns s.skipGap.reader.ahead := by
    rw [hskip.reader, Reader.ahead_withReturns]
  cases hahead : s.skipGap.reader.ahead with
  | nil =>
    rw [hahead] at hahead'
    rw [scanLexeme_of_end hahead, scanLexeme_of_end hahead']
    exact .intro _ hskip
  | cons c cs =>
    have hblank := not_isBlank_of_ahead_skipGap hahead
    have hc : c ≠ '\n' := by
      rintro rfl
      exact absurd hblank (by decide)
    rw [hahead, Text.withReturns_cons hc] at hahead'
    by_cases hopens : Trivia.OpensBlock (c :: cs)
    · obtain ⟨body, hbody⟩ := hopens
      obtain ⟨rfl, rfl⟩ := List.cons.inj hbody
      rw [scanLexeme_of_openComment hahead, scanLexeme_of_openComment hahead',
        h.passOpenComment.line]
      exact h.passOpenComment.abort _ _
    · have hslash := Trivia.head?_ne_star_of_not_opensBlock hopens
      have hslash' : c = '/' → (Text.withReturns cs).head? ≠ some '*' := fun heq =>
        mt (Text.head?_withReturns (by decide) (by decide)).mp (hslash heq)
      obtain ⟨rest, hrest⟩ := Lexeme.exists_eq_chars_first_append c cs
      rw [scanLexeme_of_cons hahead hslash, scanLexeme_of_cons hahead' hslash',
        Lexeme.first_withReturns]
      exact .intro _ (hskip.takeLexeme (hahead.trans hrest) (Lexeme.newline_not_mem_first hc cs))

/-- Behind the body of a literal on one line. -/
theorem takeBody (h : InReturns s t) {q : Quote} {body rest : List Char}
    (hahead : s.reader.ahead = body ++ q.char :: rest) (hbody : '\n' ∉ body) :
    InReturns (s.takeBody q body) (t.takeBody q body) := by
  have hq : '\n' ∉ [q.char] := by cases q <;> decide
  have hwidth : (Text.withReturns (body ++ [q.char])).length = body.length + 1 := by
    rw [Text.withReturns_append, Text.withReturns_eq_self hbody, Text.withReturns_eq_self hq]
    exact List.length_append
  have hcross : s.reader.ahead = (body ++ [q.char]) ++ rest := by simpa using hahead
  have hadvance := Reader.advance_withReturns hcross
  have hleap := Reader.leap_withReturns hcross
  rw [hwidth, List.length_append] at hadvance hleap
  refine ⟨h.options, ?_, rfl, h.slot, ?_⟩
  · rw [queue_takeBody, queue_takeBody, h.queue]
  · unfold Session.takeBody
    rw [h.options, h.reader]
    dsimp only
    split
    · exact hadvance
    · exact hleap

/-- A literal on one line is the same literal in the text with returns. -/
theorem scanBody (h : InReturns s t) (hlines : s.LiteralsOnLines) {q : Quote}
    (hopened : s.opened = some q) : Alike InReturns (s.scanBody q) (t.scanBody q) := by
  obtain ⟨place, hstands, hbodies⟩ := hlines
  have hplace := hstands.opened.symm.trans hopened
  have hahead' : t.reader.ahead = Text.withReturns s.reader.ahead := by
    rw [h.reader, Reader.ahead_withReturns]
  cases place with
  | between marked layout => cases hplace
  | done gap => cases hplace
  | stuck gap q' body =>
    obtain rfl := Option.some.inj hplace
    have hahead : s.reader.ahead = body := hstands.ahead
    rw [hahead, Text.withReturns_eq_self (hbodies body List.mem_cons_self)] at hahead'
    have hsplit := Literal.split?_eq_none_iff.mpr hstands.fits.2
    rw [scanBody_of_none (hahead.symm ▸ hsplit), scanBody_of_none (hahead'.symm ▸ hsplit), h.line]
    exact h.abort _ _
  | inside q' body rest =>
    obtain rfl := Option.some.inj hplace
    have hahead : s.reader.ahead = body ++ q'.char :: rest.chars := hstands.ahead
    have hbody := hbodies body List.mem_cons_self
    have hq : q'.char ≠ '\n' := by cases q' <;> decide
    rw [hahead, Text.withReturns_append, Text.withReturns_eq_self hbody,
      Text.withReturns_cons hq] at hahead'
    rw [scanBody_of_some (Literal.split?_eq_some_iff.mpr ⟨hahead, hstands.fits.1⟩),
      scanBody_of_some (Literal.split?_eq_some_iff.mpr ⟨hahead', hstands.fits.1⟩)]
    exact .intro _ (h.takeBody hahead hbody)

theorem scan (h : InReturns s t) (hlines : s.LiteralsOnLines) : Alike InReturns s.scan t.scan := by
  unfold Session.scan
  rw [h.opened]
  cases hopened : s.opened with
  | none => exact h.scanLexeme
  | some q => exact h.scanBody hlines hopened

end InReturns

/-! ## Answers -/

theorem lockstep_inReturns : Lockstep.Docs fun s t => InReturns s t ∧ s.LiteralsOnLines where
  queue h := h.1.queue
  line h := h.1.line
  setQueue _ h := ⟨{ h.1 with queue := rfl }, h.2.congr rfl rfl⟩
  slot h := h.1.slot
  dropSlot _ h := ⟨{ h.1 with slot := rfl }, h.2.congr rfl rfl⟩
  abort fault event h := (h.1.abort fault event).and (.of_ended (ended_abort _ fault event))
  scan h hqueue := (h.1.scan h.2).and (h.2.scan hqueue)

/-- A text with a carriage return in front of each newline has the answers of the text, as long as
    no literal reaches over the end of a line. -/
theorem replies_withReturns (options : Options) {text : String} {layout : Layout}
    (hlayout : layout.Divides (Text.dropMark text.toList))
    (hbodies : ∀ body ∈ layout.bodies, '\n' ∉ body) (queries : List Query) :
    (ofString options (String.ofList (Text.withReturns text.toList))).replies queries =
      (ofString options text).replies queries := by
  have hreader : (ofString options (String.ofList (Text.withReturns text.toList))).reader =
      (ofString options text).reader.withReturns := by
    simp [ofString, Reader.ofChars, Reader.withReturns]
  have hreturns : InReturns (ofString options text)
      (ofString options (String.ofList (Text.withReturns text.toList))) :=
    ⟨rfl, rfl, rfl, rfl, hreader⟩
  have hlines : (ofString options text).LiteralsOnLines :=
    ⟨_, standsAt_ofString options hlayout, hbodies⟩
  exact (lockstep_inReturns.replies_eq ⟨hreturns, hlines⟩ queries).symm

/-- Line ends behind comments of a run, behind a literal and behind a slash, and a literal that the
    end of the text leaves open. -/
theorem replies_withReturns_open_literal :
    (∀ body ∈ [['y'], ['z']], '\n' ∉ body) ∧
      (ofString ⟨true, false⟩ "// a\r\n // b\r\nx 'y'\r\n/\r\n\"z").replies
          [.call .peek, .pending, .line, .call .next, .call .leading, .call .next, .call .next,
            .call .next, .call (.trailing 3), .call .next, .call .next, .line, .call .next] =
        (ofString ⟨true, false⟩ "// a\n // b\nx 'y'\n/\n\"z").replies
          [.call .peek, .pending, .line, .call .next, .call .leading, .call .next, .call .next,
            .call .next, .call (.trailing 3), .call .next, .call .next, .line, .call .next] := by
  have hword : Piece.IsWord ['x'] :=
    ⟨by simp, by simp, List.forall_mem_singleton.mpr (by decide)⟩
  have hbody : Literal.IsBody .single ['y'] :=
    (Literal.split?_eq_some_iff.mp (by decide : Literal.split? .single "y'".toList =
      some (['y'], []))).2
  have hopen : Literal.AllProtected .double ['z'] := Literal.split?_eq_none_iff.mp (by decide)
  have hlayout : (Layout.more [.line [' ', 'a'] true, .blank ' ', .line [' ', 'b'] true]
      (.word ['x']) (.more [.blank ' '] (.literal .single ['y']) (.more [.blank '\n'] (.mark '/')
        (.last [.blank '\n'] (.openLiteral .double ['z']))))).Divides
      (Text.dropMark "// a\n // b\nx 'y'\n/\n\"z".toList) := by
    refine ⟨by decide, ⟨?_, rfl, ?_, trivial⟩, ⟨hword, ?_⟩, ⟨rfl, trivial⟩, hbody,
      ⟨rfl, trivial⟩, .inr ⟨rfl, ?_⟩, ⟨rfl, trivial⟩, hopen⟩
    · simp [Trivia.Fits]
    · simp [Trivia.Fits]
    · intro c hc
      obtain rfl := Option.some.inj hc
      decide
    · decide
  have hbodies : ∀ body ∈ [['y'], ['z']], '\n' ∉ body := by decide
  exact ⟨hbodies, replies_withReturns ⟨true, false⟩ hlayout hbodies _⟩

end Session

end SchemaLex
