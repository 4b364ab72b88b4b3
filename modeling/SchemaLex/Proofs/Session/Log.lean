-- SUMMARY: What a session records is told by what it has scanned and by its answers.
import SchemaLex.Proofs.Session.HandedOut
import SchemaLex.Proofs.Session.Items
import SchemaLex.Proofs.Session.LiteralLines

/-!
# The Log

The log of a session has one record for each token that was scanned, but for the quotes that close
literals, one for each documentation comment that was captured, one for each comment that a lookup
brought and one for each fault: `log_accounts_for_run`. Which calls made the session scan, and
whether a token that was scanned has been taken, plays no part. Records add up along a run
(`Logs.trans`), so what one scan and one answer record is all there is to look at.
-/

namespace SchemaLex

/-- The fault that an answer is, if it is one. -/
def faultMet : Except Fault Reply → Option Fault
  | .error fault => some fault
  | .ok _ => none

namespace Event

/-- The event is recorded in detail. -/
def isTrace (event : Event) : Bool := event.level == .trace

/-- The text of a comment that was handed out. -/
def attributed? : Event → Option String
  | attributed text => some text
  | _ => none

/-- The fault that was met. -/
def fault? : Event → Option Fault
  | openComment line => some (.openComment line)
  | openLiteral _ line => some (.openLiteral line)
  | refused fault => some fault
  | _ => none

/-- Scanning a token, capturing a comment, handing one out and meeting a fault is all that there is
    to record. -/
theorem length_eq (events : List Event) :
    events.length = (events.filter isTrace).length +
      (events.filter isCaptured).length + (events.filterMap attributed?).length +
      (events.filterMap fault?).length := by
  induction events with
  | nil => rfl
  | cons event events ih =>
    rw [List.length_cons, ih]
    cases event <;>
      simp [List.filter_cons, List.filterMap_cons, isTrace, level, isCaptured, attributed?,
        fault?] <;> omega

end Event

namespace Part

variable {options : Options} {back ps qs : List Part}

/-- All parts lie within as many characters as they have, or more. -/
theorem within_of_length_le {n : Nat} (h : (ps.flatMap chars).length ≤ n) : within n ps = ps := by
  induction ps generalizing n with
  | nil => rfl
  | cons p ps ih =>
    rw [List.flatMap_cons, List.length_append] at h
    rw [within, if_pos (by omega), ih (by omega)]

/-- The records of the parts in front of a place that make tokens, in order. -/
def traces (options : Options) : List Part → List Part → List Event
  | _, [] => []
  | back, p :: ahead =>
    (trace? (lineBehind options.countLiteralLines (p :: back).reverse) p).toList ++
      traces options (p :: back) ahead

theorem traces_append :
    traces options back (ps ++ qs) =
      traces options back ps ++ traces options (ps.reverse ++ back) qs := by
  induction ps generalizing back with
  | nil => rfl
  | cons p ps ih =>
    have hback : (p :: ps).reverse ++ back = ps.reverse ++ p :: back := by simp
    rw [List.cons_append, traces, ih, traces, hback, List.append_assoc]

theorem traces_leading (marked : Bool) : traces options back (leading marked) = [] := by
  cases marked <;> rfl

theorem traces_trivia (gap : List Trivia) : traces options back (gap.map trivia) = [] := by
  induction gap generalizing back with
  | nil => rfl
  | cons t gap ih => exact ih

theorem traces_gap (marked : Bool) (gap : List Trivia) :
    traces options back (leading marked ++ gap.map trivia) = [] := by
  rw [traces_append, traces_leading, traces_trivia, List.append_nil]

/-- Only the last part of a stretch is recorded as a token. -/
theorem traces_stretch (stretch : Stretch) : traces options back stretch.parts =
    (stretch.last.bind (trace? (lineBehind options.countLiteralLines
      (back.reverse ++ stretch.parts)))).toList := by
  obtain ⟨marked, gap, last⟩ := stretch
  rw [Stretch.parts, traces_append, traces_gap, List.nil_append]
  cases last with
  | none => rfl
  | some p => simp [traces]

/-- One record for each token, but for the quotes that close literals. -/
theorem length_traces :
    (traces options back ps).length = (ps.filterMap fun p => p.tokens.head?).length := by
  induction ps generalizing back with
  | nil => rfl
  | cons p ps ih =>
    rw [traces, List.length_append, ih, List.filterMap_cons]
    cases p <;> simp [trace?, tokens, Nat.add_comm]

end Part

/-! ## Accounts -/

/-- The events, in order, are the records of the parts that were crossed and of the answers that
    were given. -/
structure Accounts (options : Options) (back crossed : List Part)
    (answers : List (Except Fault Reply)) (events : List Event) : Prop where
  /-- Each token that was scanned, but for the quotes that close literals. -/
  traces : events.filter Event.isTrace = Part.traces options back crossed
  /-- Each documentation comment. -/
  captured : events.filter Event.isCaptured =
    (Part.docs options back crossed).map fun doc => .captured doc.1.kind doc.1.line
  /-- Each comment that a lookup brought. -/
  attributed : events.filterMap Event.attributed? = answers.filterMap docText
  /-- Each fault, once. -/
  faults : events.filterMap Event.fault? = answers.filterMap faultMet

namespace Accounts

variable {options : Options} {back ps qs : List Part} {answers answers' : List (Except Fault Reply)}
  {events events' : List Event}

theorem append (h : Accounts options back ps answers events)
    (h' : Accounts options (ps.reverse ++ back) qs answers' events')
    (hcut : Part.linesAbove (ps.reverse ++ back) = [] ∨ Part.lineBelow qs = false) :
    Accounts options back (ps ++ qs) (answers ++ answers') (events ++ events') where
  traces := by rw [List.filter_append, h.traces, h'.traces, Part.traces_append]
  captured := by
    rw [List.filter_append, h.captured, h'.captured, Part.docs_append hcut, List.map_append]
  attributed := by
    rw [List.filterMap_append, h.attributed, h'.attributed, List.filterMap_append]
  faults := by rw [List.filterMap_append, h.faults, h'.faults, List.filterMap_append]

theorem length_eq (h : Accounts options back ps answers events) :
    events.length = (ps.filterMap fun p => p.tokens.head?).length +
      (Part.docs options back ps).length + (answers.filterMap docText).length +
      (answers.filterMap faultMet).length := by
  rw [Event.length_eq, h.traces, h.captured, h.attributed, h.faults, List.length_map,
    Part.length_traces]

theorem of_reply (reply : Reply) : Accounts options back [] [.ok reply] reply.events := by
  cases reply with
  | doc text => cases text <;> exact ⟨rfl, rfl, rfl, rfl⟩
  | _ => exact ⟨rfl, rfl, rfl, rfl⟩

theorem of_fault {event : Event} {fault : Fault} (h : event.fault? = some fault) :
    Accounts options back [] [.error fault] [event] := by
  cases event with
  | openComment line => obtain rfl := Option.some.inj h; exact ⟨rfl, rfl, rfl, rfl⟩
  | openLiteral q line => obtain rfl := Option.some.inj h; exact ⟨rfl, rfl, rfl, rfl⟩
  | refused fault => obtain rfl := Option.some.inj h; exact ⟨rfl, rfl, rfl, rfl⟩
  | _ => cases h

/-- A scan records the comments that it captures and then the part that makes its tokens. -/
theorem of_scan {docs : List Doc} {last : Option Part} {line : Nat}
    (hdocs : docs = (Part.docs options back ps).map (·.1))
    (htraces : Part.traces options back ps = (last.bind (Part.trace? line)).toList) :
    Accounts options back ps [] ((docs.map fun doc => .captured doc.kind doc.line) ++
      (last.bind (Part.trace? line)).toList) := by
  have hlast (event : Event) (hmem : event ∈ (last.bind (Part.trace? line)).toList) :
      event.isTrace ∧ event.isCaptured = false ∧ event.attributed? = none ∧
        event.fault? = none := by
    obtain ⟨p, -, hp⟩ := Option.bind_eq_some_iff.mp (Option.mem_toList.mp hmem)
    cases p with
    | lexeme l => obtain rfl := Option.some.inj hp; exact ⟨rfl, rfl, rfl, rfl⟩
    | body text q => obtain rfl := Option.some.inj hp; exact ⟨rfl, rfl, rfl, rfl⟩
    | _ => cases hp
  subst hdocs
  constructor
  case traces =>
    rw [List.filter_append, htraces, List.filter_eq_self.mpr fun e he => (hlast e he).1]
    simp [List.filter_map, Event.isTrace, Event.level, Function.comp_def]
  case captured =>
    have hnone : (last.bind (Part.trace? line)).toList.filter Event.isCaptured = [] :=
      List.filter_eq_nil_iff.mpr fun e he => by simp [(hlast e he).2.1]
    rw [List.filter_append, hnone]
    simp [List.filter_map, Event.isCaptured, Function.comp_def]
  case attributed =>
    have hnone : (last.bind (Part.trace? line)).toList.filterMap Event.attributed? = [] :=
      List.filterMap_eq_nil_iff.mpr fun e he => (hlast e he).2.2.1
    rw [List.filterMap_append, hnone]
    simp [List.filterMap_map, Event.attributed?, Function.comp_def]
  case faults =>
    have hnone : (last.bind (Part.trace? line)).toList.filterMap Event.fault? = [] :=
      List.filterMap_eq_nil_iff.mpr fun e he => (hlast e he).2.2.2
    rw [List.filterMap_append, hnone]
    simp [List.filterMap_map, Event.fault?, Function.comp_def]

end Accounts

namespace Session

/-- From one session to another the log has grown by events that account for what was crossed and
    answered in between. -/
def Logs (s : Session) (options : Options) (back crossed : List Part)
    (answers : List (Except Fault Reply)) (s' : Session) : Prop :=
  ∃ events : List Event, s'.log = events.reverse ++ s.log ∧
    Accounts options back crossed answers events

/-- The parts of its text that a session has scanned behind some calls. A fault drops what is left
    of the text, so there it is what looking ahead had read. -/
def scanned (layout : Layout) (s : Session) : List Call → List Part
  | [] => partsBehind layout s
  | call :: calls =>
    match s.perform call with
    | (.ok _, s') => scanned layout s' calls
    | (.error _, _) => partsBehind layout s.peek.2

variable {s s' s'' looked : Session} {options : Options} {text : String} {layout : Layout}
  {read back ps qs : List Part} {place place' : Place} {call : Call} {calls : List Call}
  {reply : Reply} {fault : Fault} {answers answers' : List (Except Fault Reply)}
  {new : List String}

/-! ## Adding Up -/

theorem Logs.trans (h : s.Logs options back ps answers s')
    (h' : s'.Logs options (ps.reverse ++ back) qs answers' s'')
    (hcut : Part.linesAbove (ps.reverse ++ back) = [] ∨ Part.lineBelow qs = false) :
    s.Logs options back (ps ++ qs) (answers ++ answers') s'' := by
  obtain ⟨events, hlog, haccounts⟩ := h
  obtain ⟨events', hlog', haccounts'⟩ := h'
  refine ⟨events ++ events', ?_, haccounts.append haccounts' hcut⟩
  rw [hlog', hlog, List.reverse_append, List.append_assoc]

theorem Logs.refl (h : s'.log = s.log) : s.Logs options back [] [] s' :=
  ⟨[], h, rfl, rfl, rfl, rfl⟩

/-- An answer is recorded behind what was scanned for it. -/
theorem Logs.of_reply (h : s.Logs options back ps [] looked)
    (hlog : s'.log = reply.events ++ looked.log) : s.Logs options back ps [.ok reply] s' := by
  have hreverse : reply.events.reverse = reply.events := by
    cases reply with
    | doc text => cases text <;> rfl
    | _ => rfl
  have hown : looked.Logs options (ps.reverse ++ back) [] [.ok reply] s' :=
    ⟨reply.events, by rw [hreverse, hlog], .of_reply reply⟩
  simpa using h.trans hown (.inr rfl)

theorem Logs.of_fault (h : s.Logs options back ps [] looked) (event : Event)
    (hlog : s'.log = event :: looked.log) (hfault : event.fault? = some fault) :
    s.Logs options back ps [.error fault] s' := by
  have hown : looked.Logs options (ps.reverse ++ back) [] [.error fault] s' :=
    ⟨[event], hlog, .of_fault hfault⟩
  simpa using h.trans hown (.inr rfl)

theorem Logs.of_scan {docs : List Doc} {last : Option Part} {line : Nat}
    (hlog : s'.log = (last.bind (Part.trace? line)).toList ++
      (docs.map fun doc => Event.captured doc.kind doc.line).reverse ++ s.log)
    (hdocs : docs = (Part.docs options back ps).map (·.1))
    (htraces : Part.traces options back ps = (last.bind (Part.trace? line)).toList) :
    s.Logs options back ps [] s' := by
  refine ⟨_, ?_, .of_scan hdocs htraces⟩
  rw [hlog, List.reverse_append]
  cases last.bind (Part.trace? line) <;> rfl

/-! ## One Scan -/

/-- A scan records the stretch that it crosses. -/
theorem HasRead.logs_of_crosses {stretch : Stretch} (h : s.HasRead options text layout read place)
    (hcut : place.parts = [] ∨ Part.linesAbove read.reverse = [])
    (hstep : place.Step stretch place') (hcross : s.Crosses stretch s')
    (hread : s'.HasRead options text layout (read ++ stretch.parts) place') :
    s.Logs options read.reverse stretch.parts [] s' := by
  have hlog := hcross.log
  rw [hread.line, hread.options, h.options] at hlog
  refine .of_scan hlog (h.captured_of_step hcut hstep) ?_
  rw [Part.traces_stretch, List.reverse_reverse]

/-- A scan that meets a fault records the rest of the text and then the fault. -/
theorem HasRead.logs_of_fault (h : s.HasRead options text layout read place)
    (hcut : place.parts = [] ∨ Part.linesAbove read.reverse = [])
    (hscan : s.scan = (.error fault, s')) :
    s.Logs options read.reverse place.parts [.error fault] s' := by
  rcases h.standsAt.fault_of_scan hscan with ⟨marked, gap, body, rfl, -⟩ | ⟨gap, q, body, rfl, -⟩
  · obtain ⟨hgap, hopen⟩ := h.standsAt.fits
    obtain ⟨hcross, hahead⟩ := h.standsAt.skipGap rfl hgap (Ending.read?_chars hopen)
    have habort := (scan_of_not_opened h.standsAt.opened).trans (scanLexeme_of_openComment hahead)
    obtain ⟨hfault, rfl⟩ := Prod.mk.inj (hscan.symm.trans habort)
    have hparts : (Place.between marked (.last gap (.openComment body))).parts =
        Part.leading marked ++ gap.map .trivia := by
      simp [Place.parts, Layout.parts, Ending.parts]
    have hlog := hcross.log
    rw [h.options] at hlog
    rw [hparts]
    have hdocs := h.captured_of_gap hcut rfl (hparts.trans (List.append_nil _).symm) rfl hgap
    have hpassed : s.Logs options read.reverse (Part.leading marked ++ gap.map .trivia) []
        s.skipGap := .of_scan hlog hdocs (Part.traces_gap marked gap)
    exact hpassed.of_fault (.openComment s.passOpenComment.line) rfl
      (congrArg some (Except.error.inj hfault).symm)
  · have hsplit : Literal.split? q s.reader.ahead = none := by
      rw [h.standsAt.ahead]
      exact Literal.split?_eq_none_iff.mpr h.standsAt.fits.2
    have habort := (scan_of_opened h.standsAt.opened).trans (scanBody_of_none hsplit)
    obtain ⟨hfault, rfl⟩ := Prod.mk.inj (hscan.symm.trans habort)
    exact (Logs.refl rfl).of_fault (.openLiteral q s.line) rfl
      (congrArg some (Except.error.inj hfault).symm)

/-- Looking records what it crosses, if it scans. -/
theorem HasRead.logs_of_looks (h : s.HasRead options text layout read place)
    (hcut : place.parts = [] ∨ Part.linesAbove read.reverse = []) (hlooks : s.Looks new looked) :
    ∃ crossed place', looked.HasRead options text layout (read ++ crossed) place' ∧
      (place'.parts = [] ∨ Part.linesAbove (read ++ crossed).reverse = []) ∧
      s.Logs options read.reverse crossed [] looked := by
  cases hlooks with
  | stay =>
    refine ⟨[], place, ?_, ?_, .refl rfl⟩
    · rwa [List.append_nil]
    · rwa [List.append_nil]
  | scan hqueue hscan =>
    obtain ⟨stretch, place', hstep, -, hcross, hstands⟩ := h.standsAt.of_scan hscan
    have hread := h.of_passes (hcross.passes hstep hstands)
    exact ⟨stretch.parts, place', hread, hstep.linesAbove read,
      h.logs_of_crosses hcut hstep hcross hread⟩

/-! ## One Call -/

/-- A call that brings no fault records what it crosses and then the comment that it brings. -/
theorem HasRead.logs_of_perform (h : s.HasRead options text layout read place)
    (hcut : place.parts = [] ∨ Part.linesAbove read.reverse = [])
    (hperform : s.perform call = (.ok reply, s')) :
    ∃ crossed place', s'.HasRead options text layout (read ++ crossed) place' ∧
      (place'.parts = [] ∨ Part.linesAbove (read ++ crossed).reverse = []) ∧
      s.Logs options read.reverse crossed [.ok reply] s' := by
  obtain ⟨new, looked, hperforms⟩ := performs_of_perform hperform
  obtain ⟨crossed, place', hlooked, hcut', hlogs⟩ := h.logs_of_looks hcut hperforms.looks
  exact ⟨crossed, place',
    hlooked.congr hperforms.options hperforms.reader hperforms.opened, hcut',
    hlogs.of_reply hperforms.log⟩

/-- The parts of a text and what no session gets past are the whole text. -/
theorem chars_of_divides (h : layout.Divides (Text.dropMark text.toList)) :
    (Text.parts text.toList layout).flatMap Part.chars ++ layout.ending.unread = text.toList := by
  have hchars : text.toList =
      (Part.leading (text.toList.head? == some '\uFEFF')).flatMap Part.chars ++ layout.chars :=
    (standsAt_ofString {} h).ahead
  rw [← layout.flatMap_chars_parts, ← List.append_assoc, ← List.flatMap_append] at hchars
  exact hchars.symm

/-- A scan that meets a fault reads the text to its end. -/
theorem HasRead.partsBehind_of_fault (h : s.HasRead options text layout read place)
    (hscan : s.scan = (.error fault, s')) : partsBehind layout s' = read ++ place.parts := by
  have hsource : s'.reader.source = text.toList := by
    have hscanned := s.source_scan
    rw [hscan] at hscanned
    exact hscanned.trans h.source
  have hbehind : s'.reader.behind.length = text.toList.length := by
    obtain ⟨t, event, rfl⟩ := exists_abort_of_scan hscan
    have hahead : t.reader.toEnd.ahead = [] := t.reader.ahead_toEnd
    rw [← hsource, Reader.source, List.length_append, List.length_reverse]
    simp [abort]
  have hlength := congrArg List.length (chars_of_divides h.divides)
  rw [List.length_append] at hlength
  rw [partsBehind, hsource, hbehind, ← h.parts, Part.within_of_length_le (by omega)]

/-- A call with a fault records what it crosses and then the fault. -/
theorem HasRead.logs_of_perform_fault (h : s.HasRead options text layout read place)
    (hcut : place.parts = [] ∨ Part.linesAbove read.reverse = [])
    (hperform : s.perform call = (.error fault, s')) :
    ∃ crossed, partsBehind layout s.peek.2 = read ++ crossed ∧ crossed <+: place.parts ∧
      s.Logs options read.reverse crossed [.error fault] s' := by
  rcases fault_of_perform hperform with ⟨hqueue, hscan⟩ | ⟨wanted, -, hrefuses⟩
  · refine ⟨place.parts, ?_, List.prefix_rfl, h.logs_of_fault hcut hscan⟩
    rw [peek_of_fault hqueue hscan]
    exact h.partsBehind_of_fault hscan
  · obtain ⟨actual, peeked, hpeek, -, -, rfl⟩ := hrefuses.refused
    obtain ⟨new, looked, hlooks, rfl, -⟩ := looks_of_peek hpeek
    obtain ⟨crossed, place', hlooked, -, hlogs⟩ := h.logs_of_looks hcut hlooks
    refine ⟨crossed, ?_, ?_, hlogs.of_fault (.refused fault) rfl rfl⟩
    · rw [hpeek]
      exact (hlooked.congr rfl rfl rfl).partsBehind_eq
    · exact ⟨_, (h.parts_ahead hlooked).symm⟩

/-! ## Runs -/

/-- A silent session scans nothing more, so it records only answers. -/
theorem Silent.logs_of_perform (h : s.Silent) (back : List Part) (call : Call) :
    s.Logs options back [] [(s.perform call).1] (s.perform call).2 := by
  rcases hperform : s.perform call with ⟨fault | reply, s'⟩
  · rcases fault_of_perform hperform with ⟨hqueue, hscan⟩ | ⟨wanted, -, hrefuses⟩
    · cases hscan.symm.trans (h.ended hqueue).scan
    · obtain ⟨actual, peeked, hpeek, -, -, rfl⟩ := hrefuses.refused
      obtain ⟨new, looked, hlooks, rfl, -⟩ := looks_of_peek hpeek
      obtain ⟨rfl, -⟩ := h.eq_of_looks hlooks
      exact (Logs.refl rfl).of_fault (.refused fault) rfl rfl
  · obtain ⟨new, looked, hperforms⟩ := performs_of_perform hperform
    obtain ⟨rfl, -⟩ := h.eq_of_looks hperforms.looks
    exact (Logs.refl rfl).of_reply hperforms.log

theorem Silent.logs_of_run (h : s.Silent) (back : List Part) (calls : List Call) :
    s.Logs options back [] (s.run calls).1 (s.run calls).2 := by
  induction calls generalizing s with
  | nil => exact .refl rfl
  | cons call calls ih => exact (h.logs_of_perform back call).trans (ih (h.perform call)) (.inr rfl)

/-- What a run records accounts for all that it scanned and answered. -/
theorem HasRead.logs_of_run (h : s.HasRead options text layout read place)
    (hcut : place.parts = [] ∨ Part.linesAbove read.reverse = []) (calls : List Call) :
    ∃ crossed, s.scanned layout calls = read ++ crossed ∧ crossed <+: place.parts ∧
      s.Logs options read.reverse crossed (s.run calls).1 (s.run calls).2 := by
  induction calls generalizing s read place with
  | nil =>
    refine ⟨[], ?_, List.nil_prefix, .refl rfl⟩
    rw [scanned, h.partsBehind_eq, List.append_nil]
  | cons call calls ih =>
    rw [scanned, run]
    rcases hperform : s.perform call with ⟨fault | reply, s'⟩
    · obtain ⟨crossed, hscanned, hahead, hlogs⟩ := h.logs_of_perform_fault hcut hperform
      have hlater : s'.Logs options (crossed.reverse ++ read.reverse) [] _ _ :=
        (silent_of_fault hperform).logs_of_run _ calls
      refine ⟨crossed, hscanned, hahead, ?_⟩
      simpa using hlogs.trans hlater (.inr rfl)
    · obtain ⟨crossed, place', h', hcut', hlogs⟩ := h.logs_of_perform hcut hperform
      obtain ⟨later, hscanned, hahead, hlater⟩ := ih h' hcut'
      rw [List.reverse_append] at hcut' hlater
      refine ⟨crossed ++ later, ?_, ?_, ?_⟩
      · rw [← List.append_assoc]
        exact hscanned
      · rw [h.parts_ahead h']
        exact (List.prefix_append_right_inj crossed).mpr hahead
      · refine hlogs.trans hlater (hcut'.symm.imp id fun hnil => ?_)
        rw [hnil] at hahead
        rw [List.prefix_nil.mp hahead]
        rfl

/-- The log accounts for a run. In the order of the text, it has one record for each token that was
    scanned, but for the quotes that close literals, and one for each documentation comment that
    was captured; in the order of the calls, one for each comment that a lookup brought and one for
    each fault. It has no other record. -/
theorem log_accounts_for_run (options : Options) (text : String) (calls : List Call) :
    ∃ layout : Layout, layout.Divides (Text.dropMark text.toList) ∧
      (ofString options text).scanned layout calls <+: Text.parts text.toList layout ∧
      Accounts options [] ((ofString options text).scanned layout calls)
        ((ofString options text).run calls).1 ((ofString options text).run calls).2.log.reverse ∧
      ((ofString options text).run calls).2.log.length =
        (((ofString options text).scanned layout calls).filterMap fun p => p.tokens.head?).length +
          (Part.docs options [] ((ofString options text).scanned layout calls)).length +
          (((ofString options text).run calls).1.filterMap docText).length +
          (((ofString options text).run calls).1.filterMap faultMet).length := by
  obtain ⟨layout, hlayout⟩ := Layout.exists_divides (Text.dropMark text.toList)
  obtain ⟨crossed, hscanned, hahead, events, hlog, haccounts⟩ :=
    (hasRead_ofString options hlayout).logs_of_run (.inr rfl) calls
  rw [List.nil_append] at hscanned
  have hevents : ((ofString options text).run calls).2.log.reverse = events := by
    rw [hlog]
    simp [ofString]
  refine ⟨layout, hlayout, ?_, ?_, ?_⟩
  · rw [hscanned]
    exact hahead
  · rw [hscanned, hevents]
    exact haccounts
  · rw [hscanned, ← List.length_reverse, hevents]
    exact haccounts.length_eq

/-- Looking again, taking what was looked at and putting a token back add nothing. -/
example : ((ofString {} "/// a\nx 'b\\''").run
    [.peek, .peek, .next, .enqueue "y", .leading, .next, .next, .next, .require ";"]).2.log =
      List.reverse [.captured .line 1, .token "x" 2, .attributed "a", .token "'" 2, .body "b\\'" 2,
        .refused (.unexpected (some "'") ";" 2)] := by
  decide +kernel

end Session

end SchemaLex
