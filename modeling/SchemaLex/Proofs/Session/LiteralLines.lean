-- SUMMARY: Counting the newlines of literals moves the lines of a session, and nothing else of it.
import SchemaLex.Proofs.Doc.Shift
import SchemaLex.Proofs.Session.History
import SchemaLex.Proofs.Session.Slot

/-!
# The Newlines of Literals

A session that does not count the newlines of literals lags behind one that does, by the newlines in
the literal bodies that it has read. `Session.counted` makes up for the lag, and every call that
asks for no comment does the same before and after that: `perform_counted`. How much is made up for
depends on when a line was told: a fault on what was read up to it, a comment in the slot on what
was read up to its capture.
-/

namespace SchemaLex

/-- The same fault, on a line `n` further on. -/
def Fault.shift (n : Nat) : Fault → Fault
  | openComment line => openComment (line + n)
  | openLiteral line => openLiteral (line + n)
  | unexpected actual expected line => unexpected actual expected (line + n)

namespace Event

/-- The newlines in the literal body that was scanned, if one was. -/
def bodyLines : Event → Nat
  | body raw _ => raw.toList.count '\n'
  | _ => 0

/-- The newlines in all literal bodies of a record. -/
def literalLines (log : List Event) : Nat := (log.map bodyLines).sum

/-- The same event, on a line `n` further on. -/
def shift (n : Nat) : Event → Event
  | token text line => token text (line + n)
  | body raw line => body raw (line + n)
  | captured kind line => captured kind (line + n)
  | attributed text => attributed text
  | openComment line => openComment (line + n)
  | openLiteral quote line => openLiteral quote (line + n)
  | refused fault => refused (fault.shift n)

def isCaptured : Event → Bool
  | captured .. => true
  | _ => false

/-- The record up to the latest comment that was captured. -/
def upToCapture (log : List Event) : List Event := log.dropWhile fun event => !event.isCaptured

/-- The record with the newlines of literals counted, those of the event itself included. -/
def counted : List Event → List Event
  | [] => []
  | event :: older => event.shift (literalLines (event :: older)) :: counted older

variable {event : Event} {log : List Event}

theorem literalLines_cons (event : Event) (log : List Event) :
    literalLines (event :: log) = event.bodyLines + literalLines log := by
  rw [literalLines, List.map_cons, List.sum_cons]
  rfl

theorem literalLines_cons_of_eq_zero (h : event.bodyLines = 0) :
    literalLines (event :: log) = literalLines log := by
  rw [literalLines_cons, h, Nat.zero_add]

theorem counted_cons_of_eq_zero (h : event.bodyLines = 0) :
    counted (event :: log) = event.shift (literalLines log) :: counted log := by
  rw [counted, literalLines_cons_of_eq_zero h]

theorem upToCapture_cons_of_not (h : event.isCaptured = false) :
    upToCapture (event :: log) = upToCapture log :=
  List.dropWhile_cons_of_pos (by rw [h]; rfl)

theorem upToCapture_cons_of_isCaptured (h : event.isCaptured) :
    upToCapture (event :: log) = event :: log :=
  List.dropWhile_cons_of_neg (by simp [h])

/-! ## Captures -/

/-- The events of captured comments, the latest first. -/
def captures (docs : List Doc) : List Event :=
  (docs.map fun doc => captured doc.kind doc.line).reverse

theorem captures_cons_append (doc : Doc) (docs : List Doc) (log : List Event) :
    captures (doc :: docs) ++ log = captures docs ++ captured doc.kind doc.line :: log := by
  simp [captures]

theorem literalLines_captures (docs : List Doc) (log : List Event) :
    literalLines (captures docs ++ log) = literalLines log := by
  induction docs generalizing log with
  | nil => rfl
  | cons doc docs ih => rw [captures_cons_append, ih, literalLines_cons_of_eq_zero rfl]

theorem counted_captures (docs : List Doc) (log : List Event) :
    counted (captures docs ++ log) =
      captures (docs.map (Doc.shift (literalLines log))) ++ counted log := by
  induction docs generalizing log with
  | nil => rfl
  | cons doc docs ih =>
    rw [captures_cons_append, ih, counted_cons_of_eq_zero rfl, literalLines_cons_of_eq_zero rfl,
      List.map_cons, captures_cons_append]
    rfl

theorem literalLines_upToCapture_captures {docs : List Doc} (h : docs ≠ []) (log : List Event) :
    literalLines (upToCapture (captures docs ++ log)) = literalLines log := by
  induction docs generalizing log with
  | nil => exact absurd rfl h
  | cons doc docs ih =>
    rw [captures_cons_append]
    by_cases hdocs : docs = []
    · rw [hdocs]
      change literalLines (upToCapture (captured doc.kind doc.line :: log)) = _
      rw [upToCapture_cons_of_isCaptured rfl, literalLines_cons_of_eq_zero rfl]
    · rw [ih hdocs, literalLines_cons_of_eq_zero rfl]

end Event

namespace Session

/-- The newlines in the literal bodies that the session has read, as its record tells. -/
def literalLines (s : Session) : Nat := Event.literalLines s.log

/-- Those that it had read when it captured its latest comment. -/
def literalLinesAtCapture (s : Session) : Nat := Event.literalLines (Event.upToCapture s.log)

/-- The session with the newlines of literals counted. -/
def counted (s : Session) : Session where
  options := { s.options with countLiteralLines := true }
  reader := s.reader.shift s.literalLines
  queue := s.queue
  opened := s.opened
  slot := s.slot.map (Doc.shift s.literalLinesAtCapture)
  log := Event.counted s.log

/-- An answer with the newlines of literals counted, and the session behind it. -/
def countedAnswer {α : Type} (answered : Except Fault α × Session) : Except Fault α × Session :=
  (answered.1.mapError (Fault.shift answered.2.literalLines), answered.2.counted)

variable {s t : Session} {call : Call} {calls : List Call}

theorem eq_counted (hoptions : t.options = { s.options with countLiteralLines := true })
    (hreader : t.reader = s.reader.shift s.literalLines) (hqueue : t.queue = s.queue)
    (hopened : t.opened = s.opened)
    (hslot : t.slot = s.slot.map (Doc.shift s.literalLinesAtCapture))
    (hlog : t.log = Event.counted s.log) : t = s.counted := by
  cases t
  subst hoptions hreader hqueue hopened hslot hlog
  rfl

/-! ## Scanning -/

theorem skipGap_counted (s : Session) : s.counted.skipGap = s.skipGap.counted := by
  have hskip : s.counted.reader.skipMark = s.reader.skipMark.shift s.literalLines :=
    Reader.skipMark_shift _ _
  have hitems : s.counted.gapItems = s.gapItems := by
    rw [gapItems, hskip]
    rfl
  have hdocs : s.counted.gapDocs = s.gapDocs.map (Doc.shift s.literalLines) := by
    rw [gapDocs, hitems, hskip]
    exact Doc.captured_shift ..
  have hlines : s.skipGap.literalLines = s.literalLines := Event.literalLines_captures _ _
  refine eq_counted rfl ?reader rfl rfl ?slot ?log
  case reader =>
    change s.counted.gapItems.foldl Reader.pass s.counted.reader.skipMark = _
    rw [hitems, hskip, Reader.foldl_pass_shift, hlines]
    rfl
  case slot =>
    change s.counted.gapDocs.getLast?.or (s.slot.map _) =
      (s.gapDocs.getLast?.or s.slot).map (Doc.shift (Event.literalLines
        (Event.upToCapture (Event.captures s.gapDocs ++ s.log))))
    rw [hdocs, List.getLast?_map]
    cases hlast : s.gapDocs.getLast? with
    | none =>
      rw [List.getLast?_eq_none_iff.mp hlast]
      rfl
    | some doc =>
      have hne : s.gapDocs ≠ [] := List.ne_nil_of_mem (List.mem_of_getLast? hlast)
      rw [Event.literalLines_upToCapture_captures hne]
      rfl
  case log =>
    change Event.captures s.counted.gapDocs ++ Event.counted s.log = _
    rw [hdocs]
    exact (Event.counted_captures _ _).symm

theorem takeLexeme_counted (s : Session) (l : Lexeme) :
    s.counted.takeLexeme l = (s.takeLexeme l).counted := by
  have hlines : (s.takeLexeme l).literalLines = s.literalLines :=
    Event.literalLines_cons_of_eq_zero rfl
  have hcapture : (s.takeLexeme l).literalLinesAtCapture = s.literalLinesAtCapture :=
    congrArg Event.literalLines (Event.upToCapture_cons_of_not rfl)
  refine eq_counted rfl ?reader rfl rfl ?slot ?log
  case reader =>
    rw [hlines]
    exact Reader.advance_shift ..
  case slot => rw [hcapture]; rfl
  case log =>
    change Event.token l.token _ :: _ = Event.counted (_ :: s.log)
    rw [Event.counted_cons_of_eq_zero rfl]
    exact congrArg (Event.token l.token · :: Event.counted s.log)
      (congrArg Reader.line (Reader.advance_shift ..))

/-- A fault that ends the session is told on the line that the session would have reached. -/
theorem abort_counted {α : Type} (s : Session) (fault : Fault) (event : Event)
    (h : event.bodyLines = 0) :
    s.counted.abort (fault.shift s.literalLines) (event.shift s.literalLines) =
      countedAnswer (s.abort fault event : Except Fault α × Session) := by
  have hlines : (abort (α := α) s fault event).2.literalLines = s.literalLines :=
    Event.literalLines_cons_of_eq_zero h
  refine Prod.ext ?_ (eq_counted rfl ?_ rfl rfl rfl ?_)
  · rw [countedAnswer, hlines]
    rfl
  · rw [hlines]
    rfl
  · exact (Event.counted_cons_of_eq_zero h).symm

theorem passOpenComment_counted (s : Session) :
    s.counted.passOpenComment = s.passOpenComment.counted := by
  unfold passOpenComment
  rw [skipGap_counted]
  exact eq_counted rfl (Reader.advance_shift ..) rfl rfl rfl rfl

theorem scanLexeme_counted (s : Session) : s.counted.scanLexeme = countedAnswer s.scanLexeme := by
  have hskip : s.counted.skipGap.reader.ahead = s.skipGap.reader.ahead := by
    rw [skipGap_counted]
    rfl
  cases hahead : s.skipGap.reader.ahead with
  | nil =>
    rw [scanLexeme_of_end hahead, scanLexeme_of_end (hskip.trans hahead), skipGap_counted]
    rfl
  | cons c cs =>
    by_cases hopens : Trivia.OpensBlock (c :: cs)
    · obtain ⟨body, hbody⟩ := hopens
      rw [← hbody] at hahead
      rw [scanLexeme_of_openComment hahead, scanLexeme_of_openComment (hskip.trans hahead),
        passOpenComment_counted]
      exact abort_counted _ (.openComment s.passOpenComment.line) (.openComment _) rfl
    · have hslash := Trivia.head?_ne_star_of_not_opensBlock hopens
      rw [scanLexeme_of_cons hahead hslash, scanLexeme_of_cons (hskip.trans hahead) hslash,
        skipGap_counted, takeLexeme_counted]
      rfl

/-- Behind a literal body the session lags by the newlines of the body as well. -/
theorem takeBody_counted {q : Quote} {body rest : List Char}
    (hcount : s.options.countLiteralLines = false)
    (hahead : s.reader.ahead = body ++ q.char :: rest) :
    s.counted.takeBody q body = (s.takeBody q body).counted := by
  have hbody : (s.takeBody q body).literalLines = body.count '\n' + s.literalLines := by
    refine (Event.literalLines_cons _ _).trans ?_
    rw [Event.bodyLines, String.toList_ofList]
    rfl
  have hcrossed : (s.reader.ahead.take (body.length + 1)).count '\n' = body.count '\n' := by
    rw [hahead, List.take_append, List.take_of_length_le (Nat.le_succ _)]
    cases q <;> simp [Quote.char]
  have hreader : (s.counted.takeBody q body).reader =
      (s.takeBody q body).reader.shift (s.takeBody q body).literalLines := by
    rw [hbody]
    simp only [takeBody, hcount, counted, ↓reduceIte, Bool.false_eq_true]
    rw [Reader.advance_shift, Reader.advance, hcrossed, Reader.shift, Reader.shift]
    simp [Reader.leap, Nat.add_assoc]
  have hcapture : (s.takeBody q body).literalLinesAtCapture = s.literalLinesAtCapture :=
    congrArg Event.literalLines (Event.upToCapture_cons_of_not rfl)
  refine eq_counted rfl hreader rfl rfl ?slot ?log
  case slot =>
    rw [hcapture]
    rfl
  case log =>
    change Event.body _ (s.counted.takeBody q body).reader.line :: Event.counted s.log = _
    rw [hreader]
    rfl

theorem scanBody_counted (hcount : s.options.countLiteralLines = false) (q : Quote) :
    s.counted.scanBody q = countedAnswer (s.scanBody q) := by
  cases hsplit : Literal.split? q s.reader.ahead with
  | none =>
    rw [scanBody_of_none hsplit, scanBody_of_none (s := s.counted) hsplit]
    exact abort_counted s (.openLiteral s.line) (.openLiteral q _) rfl
  | some found =>
    obtain ⟨body, rest⟩ := found
    rw [scanBody_of_some hsplit, scanBody_of_some (s := s.counted) hsplit,
      takeBody_counted hcount (Literal.eq_of_split? hsplit)]
    rfl

theorem scan_counted (hcount : s.options.countLiteralLines = false) :
    s.counted.scan = countedAnswer s.scan := by
  cases hopened : s.opened with
  | none =>
    rw [scan_of_not_opened hopened, scan_of_not_opened (s := s.counted) hopened]
    exact s.scanLexeme_counted
  | some q =>
    rw [scan_of_opened hopened, scan_of_opened (s := s.counted) hopened]
    exact scanBody_counted hcount q

/-! ## Calls -/

theorem next_counted (hcount : s.options.countLiteralLines = false) :
    s.counted.next = countedAnswer s.next := by
  have hsame : s.counted.queue = s.queue := rfl
  unfold next
  rw [hsame]
  cases hqueue : s.queue with
  | nil => exact scan_counted hcount
  | cons token rest => rfl

theorem peek_counted (hcount : s.options.countLiteralLines = false) :
    s.counted.peek = countedAnswer s.peek := by
  have hsame : s.counted.queue = s.queue := rfl
  unfold peek
  rw [hsame]
  cases hqueue : s.queue with
  | nil =>
    dsimp only
    rw [scan_counted hcount]
    rcases s.scan with ⟨fault | token | token, s'⟩ <;> rfl
  | cons token rest => rfl

theorem accept_counted (hcount : s.options.countLiteralLines = false) (wanted : String) :
    s.counted.accept wanted = countedAnswer (s.accept wanted) := by
  unfold accept
  rw [peek_counted hcount]
  rcases s.peek with ⟨fault | actual, peeked⟩
  · rfl
  · by_cases hactual : actual = some wanted
    · simp only [countedAnswer, Except.mapError, if_pos hactual]
      rfl
    · simp only [countedAnswer, Except.mapError, if_neg hactual]

theorem require_counted (hcount : s.options.countLiteralLines = false) (wanted : String) :
    s.counted.require wanted = countedAnswer (s.require wanted) := by
  unfold require
  rw [peek_counted hcount]
  rcases s.peek with ⟨fault | actual, peeked⟩
  · rfl
  · by_cases hactual : actual = some wanted
    · simp only [countedAnswer, Except.mapError, if_pos hactual]
      rfl
    · have habort := abort_counted (α := Unit) peeked
        (.unexpected actual wanted peeked.line)
        (.refused (.unexpected actual wanted peeked.line)) rfl
      simp only [countedAnswer, Except.mapError, if_neg hactual] at habort ⊢
      exact habort

theorem countedAnswer_map {α β : Type} (f : α → β) (answered : Except Fault α × Session) :
    ((countedAnswer answered).1.map f, (countedAnswer answered).2) =
      countedAnswer (answered.1.map f, answered.2) := by
  rcases answered with ⟨fault | a, left⟩ <;> rfl

/-- A call that asks for no comment does the same whether the newlines of literals are counted
    before it or behind it. -/
theorem perform_counted (hcount : s.options.countLiteralLines = false) (hcall : ¬ call.IsLookup) :
    s.counted.perform call = countedAnswer (s.perform call) := by
  cases call with
  | next =>
    simp only [perform, next_counted hcount]
    exact countedAnswer_map _ _
  | peek =>
    simp only [perform, peek_counted hcount]
    exact countedAnswer_map _ _
  | enqueue token => rfl
  | accept wanted =>
    simp only [perform, accept_counted hcount]
    exact countedAnswer_map _ _
  | require wanted =>
    simp only [perform, require_counted hcount]
    exact countedAnswer_map _ _
  | leading => exact absurd trivial hcall
  | trailing line => exact absurd trivial hcall

/-! ## Runs -/

theorem history_counted (hcount : s.options.countLiteralLines = false)
    (hcalls : ∀ call ∈ calls, ¬ call.IsLookup) :
    s.counted.history calls = (s.history calls).map countedAnswer := by
  induction calls generalizing s with
  | nil => rfl
  | cons call calls ih =>
    obtain ⟨hcall, hlater⟩ := List.forall_mem_cons.mp hcalls
    have hoptions : (s.perform call).2.options.countLiteralLines = false := by
      rw [options_perform, hcount]
    rw [history, perform_counted hcount hcall, history, List.map_cons]
    exact congrArg _ (ih hoptions hlater)

theorem run_counted {replies : List Reply} (hcount : s.options.countLiteralLines = false)
    (hcalls : ∀ call ∈ calls, ¬ call.IsLookup) (hrun : s.run calls = (replies.map .ok, t)) :
    s.counted.run calls = (replies.map .ok, t.counted) := by
  induction calls generalizing s replies with
  | nil =>
    obtain ⟨hreplies, rfl⟩ := Prod.mk.inj hrun
    exact Prod.ext hreplies rfl
  | cons call calls ih =>
    obtain ⟨hcall, hlater⟩ := List.forall_mem_cons.mp hcalls
    obtain ⟨reply, replies', s', hperform, rfl, hrun'⟩ := run_cons_eq_ok hrun
    have hoptions : s'.options.countLiteralLines = false := by
      have := s.options_perform call
      rw [hperform] at this
      rw [this, hcount]
    have hcounted := perform_counted hcount hcall
    rw [hperform] at hcounted
    rw [run, hcounted]
    change (.ok reply :: (s'.counted.run calls).1, (s'.counted.run calls).2) = _
    rw [ih hoptions hlater hrun']
    rfl

end Session

/-! ## The Literals of a Text -/

namespace Part

/-- The newlines in the part if it is a literal body. -/
def literalLines : Part → Nat
  | body text _ => text.count '\n'
  | _ => 0

theorem lineEnds_true_eq (p : Part) : p.lineEnds true = p.lineEnds false + p.literalLines := by
  cases p with
  | body text q => cases q <;> simp [lineEnds, literalLines, Quote.char]
  | _ => rfl

theorem lineBehind_true (ps : List Part) :
    lineBehind true ps = lineBehind false ps + (ps.map literalLines).sum := by
  induction ps with
  | nil => rfl
  | cons p ps ih =>
    simp only [lineBehind, List.map_cons, List.sum_cons, lineEnds_true_eq] at ih ⊢
    omega

/-- The documentation that ends with an item is told on a line further on by the newlines of the
    literals in front of it. -/
theorem docEnding?_counted (everyComment : Bool) (back : List Part) (t : Trivia) :
    docEnding? ⟨everyComment, true⟩ back t =
      (docEnding? ⟨everyComment, false⟩ back t).map
        (Doc.shift ((trivia t :: back).map literalLines).sum) := by
  have hback (back : List Part) : lineBehind true back.reverse =
      lineBehind false back.reverse + (back.map literalLines).sum := by
    rw [lineBehind_true, List.map_reverse, List.sum_reverse]
  cases t with
  | blank c => rfl
  | line text ended =>
    have hitem : ((trivia (.line text ended) :: back).map literalLines).sum =
        (back.map literalLines).sum := Nat.zero_add _
    rw [docEnding?, docEnding?, Option.map_map, hback, hitem]
    rfl
  | block text =>
    rw [docEnding?, docEnding?, Option.map_map, hback]
    rfl

theorem latest_counted (everyComment : Bool) (back : List Part) :
    latest ⟨everyComment, true⟩ back = (latest ⟨everyComment, false⟩ back).map fun (doc, upTo) =>
      (doc.shift (upTo.map literalLines).sum, upTo) := by
  induction back with
  | nil => rfl
  | cons p back ih =>
    cases p with
    | trivia t =>
      rw [latest, latest, docEnding?_counted, ih]
      cases docEnding? ⟨everyComment, false⟩ back t <;> rfl
    | _ => exact ih

end Part

namespace Session

variable {s : Session} {calls : List Call} {replies : List Reply} {everyComment : Bool}
  {text : String} {layout : Layout}

theorem ofString_counted (everyComment : Bool) (text : String) :
    (ofString ⟨everyComment, false⟩ text).counted = ofString ⟨everyComment, true⟩ text := rfl

/-- As long as no fault is met, the record of a session tells the newlines of the literals behind
    it, and of those in front of the comment in its slot. -/
theorem literalLines_of_run (hlayout : layout.Divides (Text.dropMark text.toList))
    (hcalls : ∀ call ∈ calls, ¬ call.IsLookup)
    (hrun : (ofString ⟨everyComment, false⟩ text).run calls = (replies.map .ok, s)) :
    s.literalLines = ((partsBehind layout s).map Part.literalLines).sum ∧
      ∀ doc, s.slot = some doc → ∃ upTo, docBehind layout s = some (doc, upTo) ∧
        s.literalLinesAtCapture = (upTo.map Part.literalLines).sum := by
  have hcounted := run_counted rfl hcalls hrun
  rw [ofString_counted] at hcounted
  obtain ⟨read, place, hread, hholds⟩ :=
    (slotHolds_ofString _ text _).of_run (hasRead_ofString _ hlayout) hrun
  obtain ⟨read', place', hread', hholds'⟩ :=
    (slotHolds_ofString _ text _).of_run (hasRead_ofString _ hlayout) hcounted
  -- Both sessions have read the same parts, so the lag is told by their lines.
  obtain rfl : read' = read := hread'.partsBehind_eq.symm.trans hread.partsBehind_eq
  constructor
  · have hline : s.line + s.literalLines = Part.lineBehind true read' := hread'.line
    have hlag : s.line = Part.lineBehind false read' := by
      rw [hread.line, hread.options]
    rw [hread.partsBehind_eq]
    rw [hlag, Part.lineBehind_true] at hline
    omega
  · intro doc hslot
    obtain ⟨upTo, hlatest, -⟩ := hholds.of_slot hslot
    have hslot' : s.counted.slot = some (doc.shift s.literalLinesAtCapture) := by
      rw [counted, hslot]
      rfl
    obtain ⟨upTo', hlatest', -⟩ := hholds'.of_slot hslot'
    rw [Part.latest_counted, hlatest] at hlatest'
    refine ⟨upTo, hread.docBehind_eq.trans hlatest, ?_⟩
    exact (Doc.shift_inj (Prod.mk.inj (Option.some.inj hlatest')).1).symm

/-- An answer of a session that does not count the newlines of literals, and the answer of one that
    does. -/
structure Lags (a b : Except Fault Reply × Session) : Prop where
  /-- The same token, the same truth value, or the same fault on a line further on. -/
  answer : b.1 = a.1.mapError (Fault.shift a.2.literalLines)
  offset : b.2.reader.caret.offset = a.2.reader.caret.offset
  line : a.2.line + a.2.literalLines = b.2.line
  /-- The same form and the same text, on a line further on. -/
  slot : b.2.slot = a.2.slot.map (Doc.shift a.2.literalLinesAtCapture)

/-- Counting the newlines of literals changes lines only. The line of a session and of a fault moves
    by the newlines of the literals read so far, that of a comment by those read when it was
    captured. -/
theorem history_countLiteralLines (everyComment : Bool) (text : String)
    (hcalls : ∀ call ∈ calls, ¬ call.IsLookup) :
    List.Forall₂ Lags ((ofString ⟨everyComment, false⟩ text).history calls)
        ((ofString ⟨everyComment, true⟩ text).history calls) ∧
      ∃ layout : Layout, layout.Divides (Text.dropMark text.toList) ∧
        ∀ (replies : List Reply) (s : Session),
          (ofString ⟨everyComment, false⟩ text).run calls = (replies.map .ok, s) →
          s.literalLines = ((partsBehind layout s).map Part.literalLines).sum ∧
            ∀ doc, s.slot = some doc → ∃ upTo, docBehind layout s = some (doc, upTo) ∧
              s.literalLinesAtCapture = (upTo.map Part.literalLines).sum := by
  obtain ⟨layout, hlayout⟩ := Layout.exists_divides (Text.dropMark text.toList)
  refine ⟨?_, layout, hlayout, fun replies s hrun => literalLines_of_run hlayout hcalls hrun⟩
  rw [← ofString_counted, history_counted rfl hcalls, List.forall₂_map_right_iff,
    List.forall₂_same]
  exact fun answered _ => ⟨rfl, rfl, rfl, rfl⟩

/-- Behind a literal of three lines, one of which decoding drops, come a comment and a literal that
    stays open. -/
theorem history_countLiteralLines_escaped_newline :
    (∀ call ∈ [Call.next, .peek, .next, .next, .accept "\"", .next], ¬ call.IsLookup) ∧
      ((ofString ⟨false, false⟩ "'a\n\\\n' /// d\n\"").run
        [.next, .peek, .next, .next, .accept "\"", .next]).2.literalLines = 2 ∧
      List.Forall₂ Lags
        ((ofString ⟨false, false⟩ "'a\n\\\n' /// d\n\"").history
          [.next, .peek, .next, .next, .accept "\"", .next])
        ((ofString ⟨false, true⟩ "'a\n\\\n' /// d\n\"").history
          [.next, .peek, .next, .next, .accept "\"", .next]) := by
  have hcalls : ∀ call ∈ [Call.next, .peek, .next, .next, .accept "\"", .next],
      ¬ call.IsLookup := by simp [Call.IsLookup]
  exact ⟨hcalls, by decide +kernel, (history_countLiteralLines false _ hcalls).1⟩

end Session

end SchemaLex
