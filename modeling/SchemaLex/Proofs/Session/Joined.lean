-- SUMMARY: The course of a session over two texts with a line end between them.
import SchemaLex.Proofs.Layout.Join
import SchemaLex.Proofs.Session.Final
import SchemaLex.Proofs.Session.Lines

/-!
# Sessions over Joined Texts

The course of a session can be read off the parts ahead of it: `StandsAt.course_eq`. The parts of
two texts with a newline between them are those of the first, with its last line ended, and then
those of the second. So a session brings what it would bring over each, in the second on lines
further on: `course_of_join`.
-/

namespace SchemaLex

namespace Part

/-- The newlines of a part, with those of literals or without. -/
def newlines (inLiterals : Bool) : Part → Nat
  | body text _ => if inLiterals then text.count '\n' else 0
  | p => p.chars.count '\n'

/-- The tokens that parts bring to a reader on `line`, each with the line behind its part. -/
def deliveries (inLiterals : Bool) (line : Nat) : List Part → List (String × Nat)
  | [] => []
  | p :: ps =>
    let behind := line + p.lineEnds inLiterals
    p.tokens.map (·, behind) ++ deliveries inLiterals behind ps

variable {inLiterals : Bool} {line : Nat} {ps qs : List Part}

theorem lineEnds_eq (inLiterals : Bool) (p : Part) :
    p.lineEnds inLiterals = p.newlines inLiterals + p.impliedLineEnds := by
  cases p with
  | body text q => cases q <;> simp [lineEnds, newlines, impliedLineEnds, Quote.char]
  | _ => rfl

theorem sum_lineEnds_eq (inLiterals : Bool) (ps : List Part) :
    (ps.map (lineEnds inLiterals)).sum =
      (ps.map (newlines inLiterals)).sum + (ps.map impliedLineEnds).sum := by
  induction ps with
  | nil => rfl
  | cons p ps ih =>
    simp only [List.map_cons, List.sum_cons, ih, lineEnds_eq]
    omega

theorem sum_newlines_trivia (inLiterals : Bool) (gap : List Trivia) :
    ((gap.map trivia).map (newlines inLiterals)).sum = (gap.flatMap Trivia.chars).count '\n' := by
  rw [List.map_map, List.count_flatMap]
  rfl

/-- With those of literals, all newlines count. -/
theorem sum_newlines_true (ps : List Part) :
    (ps.map (newlines true)).sum = (ps.flatMap chars).count '\n' := by
  have hpart (p : Part) : p.newlines true = p.chars.count '\n' := by
    cases p with
    | body text q => cases q <;> simp [newlines, chars, Quote.char]
    | _ => rfl
  rw [List.count_flatMap]
  exact congrArg List.sum (List.map_congr_left fun p _ => hpart p)

/-! ## Deliveries -/

theorem deliveries_append (inLiterals : Bool) (line : Nat) (ps qs : List Part) :
    deliveries inLiterals line (ps ++ qs) =
      deliveries inLiterals line ps ++
        deliveries inLiterals (line + (ps.map (lineEnds inLiterals)).sum) qs := by
  induction ps generalizing line with
  | nil => rfl
  | cons p ps ih =>
    simp only [List.cons_append, deliveries, ih, List.append_assoc, List.map_cons, List.sum_cons,
      Nat.add_assoc]

theorem deliveries_eq_nil (h : ∀ p ∈ ps, p.tokens = []) : deliveries inLiterals line ps = [] := by
  induction ps generalizing line with
  | nil => rfl
  | cons p ps ih =>
    obtain ⟨hp, hps⟩ := List.forall_mem_cons.mp h
    rw [deliveries, hp, ih hps]
    rfl

theorem deliveries_trivia (gap : List Trivia) :
    deliveries inLiterals line (gap.map trivia) = [] := by
  refine deliveries_eq_nil fun p hp => ?_
  obtain ⟨t, -, rfl⟩ := List.mem_map.mp hp
  rfl

/-- On a line further on the same tokens come, on lines as much further on. -/
theorem deliveries_add (n : Nat) :
    deliveries inLiterals (line + n) ps =
      (deliveries inLiterals line ps).map fun d => (d.1, d.2 + n) := by
  induction ps generalizing line with
  | nil => rfl
  | cons p ps ih =>
    simp only [deliveries, Nat.add_right_comm line n, ih, List.map_append, List.map_map]
    rfl

end Part

/-! ## Places -/

/-- How a course ends that comes to the ending on `line`. -/
def Ending.outcome (line : Nat) : Ending → Except Fault (Option String) × Nat
  | complete => (.ok none, line)
  | openComment body =>
    (.error (.openComment (line + body.count '\n')), line + body.count '\n')
  | openLiteral _ _ => (.error (.openLiteral line), line)

/-- A token on its line as an answer. -/
def Session.delivered (d : String × Nat) : Except Fault (Option String) × Nat :=
  (.ok (some d.1), d.2)

/-- The course of a session on `line` at the place. -/
def Place.course (inLiterals : Bool) (line : Nat) (place : Place) :
    List (Except Fault (Option String) × Nat) :=
  (Part.deliveries inLiterals line place.parts).map Session.delivered ++
    [place.ending.outcome (line + (place.parts.map (Part.lineEnds inLiterals)).sum)]

/-- Only the last part of a stretch brings tokens. -/
theorem Stretch.deliveries_parts (inLiterals : Bool) (line : Nat) (stretch : Stretch) :
    Part.deliveries inLiterals line stretch.parts =
      stretch.tokens.map (·, line + (stretch.parts.map (Part.lineEnds inLiterals)).sum) := by
  obtain ⟨marked, gap, last⟩ := stretch
  have hleading : Part.deliveries inLiterals line (Part.leading marked) = [] := by
    cases marked <;> rfl
  unfold parts tokens
  rw [Part.deliveries_append, Part.deliveries_append, hleading, Part.deliveries_trivia]
  cases last with
  | none => rfl
  | some p => simp [Part.deliveries, Nat.add_assoc]

theorem Place.Step.course_eq {place place' : Place} {stretch : Stretch}
    (h : place.Step stretch place') (inLiterals : Bool) (line : Nat) :
    place.course inLiterals line =
      (stretch.tokens.map fun token => Session.delivered
        (token, line + (stretch.parts.map (Part.lineEnds inLiterals)).sum)) ++
      place'.course inLiterals (line + (stretch.parts.map (Part.lineEnds inLiterals)).sum) := by
  rw [course, h.parts_eq, Part.deliveries_append, Stretch.deliveries_parts, ← h.ending_eq, course]
  simp [Nat.add_assoc]

theorem Place.Step.course_of_end {place place' : Place} {stretch : Stretch}
    (h : place.Step stretch place') (htokens : stretch.tokens = []) (inLiterals : Bool)
    (line : Nat) : place'.course inLiterals line = [(.ok none, line)] := by
  cases h with
  | finish => rfl
  | stay => rfl
  | _ => cases htokens

theorem Place.course_of_openComment (inLiterals : Bool) (line : Nat) (marked : Bool)
    (gap : List Trivia) (body : List Char) :
    (between marked (.last gap (.openComment body))).course inLiterals line =
      [(Ending.openComment body).outcome (line +
        ((Stretch.parts ⟨marked, gap, none⟩).map (Part.lineEnds inLiterals)).sum)] := by
  have hparts : (between marked (.last gap (.openComment body))).parts =
      Stretch.parts ⟨marked, gap, none⟩ := by
    simp [parts, Stretch.parts, Layout.parts, Ending.parts]
  rw [course, hparts, Stretch.deliveries_parts]
  rfl

namespace Session

variable {s : Session} {place : Place}

/-- Waiting tokens come first, on the line of the session. -/
theorem course_of_queue (s : Session) :
    s.course =
      s.queue.map (fun token => delivered (token, s.line)) ++ { s with queue := [] }.course := by
  induction hqueue : s.queue generalizing s with
  | nil => simp [← hqueue]
  | cons token rest ih =>
    have hnext : s.next = (.ok (some token), { s with queue := rest }) := by simp [next, hqueue]
    rw [course_of_token hnext, ih { s with queue := rest } rfl]
    rfl

/-- The course of a session is that of its place. -/
theorem StandsAt.course_eq (h : s.StandsAt place) (hqueue : s.queue = []) :
    s.course = place.course s.options.countLiteralLines s.line := by
  induction hweight : s.weight using Nat.strongRecOn generalizing s place with
  | ind n ih =>
    have hnext : s.next = s.scan := by rw [next, hqueue]
    rcases place.exists_step_or with
      ⟨stretch, place', hstep⟩ | ⟨marked, gap, body, rfl⟩ | ⟨gap, q, body, rfl⟩
    · obtain ⟨s', hscan, hcross, hstands⟩ := h.scan_of_step hstep
      rw [← hnext] at hscan
      have hline : s'.line =
          s.line + (stretch.parts.map (Part.lineEnds s.options.countLiteralLines)).sum := by
        rw [line, hcross.reader, Reader.line_foldl_cross (h.ahead.trans hstep.chars_eq)]
        rfl
      have htail : s'.queue = stretch.tokens.tail := by rw [hcross.queue, hqueue, List.nil_append]
      rw [hstep.course_eq, ← hline]
      cases htokens : stretch.tokens with
      | nil =>
        rw [htokens] at hscan
        rw [course_of_last hscan (by simp), hstep.course_of_end htokens]
        rfl
      | cons token tokens =>
        rw [htokens] at hscan htail
        let rest : Session := { s' with queue := [] }
        have hlighter : rest.weight < n := by
          have := weight_next hscan
          simp only [rest, weight, List.length_nil] at this hweight ⊢
          omega
        have hrest : rest.StandsAt place' := hstands.congr rfl rfl
        rw [course_of_token hscan, course_of_queue s', htail, ih _ hlighter hrest rfl rfl]
        simp only [rest, hcross.options]
        rfl
    · obtain ⟨s', hscan⟩ := h.scan_of_openComment
      have hline := (closedBy_of_scan hscan).line
      rw [course_of_last (hnext.trans hscan) (by simp), ← hline,
        Place.course_of_openComment]
      rfl
    · obtain ⟨s', hscan⟩ := h.scan_of_stuck
      have hline := (closedBy_of_scan hscan).line
      rw [course_of_last (hnext.trans hscan) (by simp), ← hline]
      rfl

/-- An answer on a line `n` further on. -/
def furtherOn (n : Nat) (answered : Except Fault (Option String) × Nat) :
    Except Fault (Option String) × Nat :=
  (answered.1.mapError (Fault.shift n), answered.2 + n)

end Session

/-! ## Joining -/

theorem Text.dropMark_append_newline (cs ds : List Char) :
    dropMark (cs ++ '\n' :: ds) = dropMark cs ++ '\n' :: ds := by
  cases cs with
  | nil => rfl
  | cons c cs =>
    by_cases hc : c = '\uFEFF'
    · subst hc
      rfl
    · simp [dropMark, hc]

theorem Text.count_newline_dropMark (cs : List Char) :
    (dropMark cs).count '\n' = cs.count '\n' := by
  cases cs with
  | nil => rfl
  | cons c cs =>
    by_cases hc : c = '\uFEFF'
    · subst hc
      simp [dropMark]
    · simp [dropMark, hc]

theorem Text.dropMark_eq_self {cs : List Char} (h : cs.head? ≠ some '\uFEFF') :
    dropMark cs = cs := by
  cases cs with
  | nil => rfl
  | cons c cs =>
    have hc : c ≠ '\uFEFF' := by simpa using h
    simp [dropMark, hc]

theorem Ending.eq_complete_of_outcome {line : Nat} {e : Ending}
    (h : (e.outcome line).1 = .ok none) : e = .complete := by
  cases e with
  | complete => rfl
  | openComment body => cases h
  | openLiteral q body => cases h

theorem Ending.outcome_add (n line : Nat) (e : Ending) :
    e.outcome (line + n) = Session.furtherOn n (e.outcome line) := by
  cases e with
  | openComment body => simp [outcome, Session.furtherOn, Except.mapError, Fault.shift,
      Nat.add_right_comm]
  | _ => rfl

theorem Place.course_add (inLiterals : Bool) (n line : Nat) (place : Place) :
    place.course inLiterals (line + n) =
      (place.course inLiterals line).map (Session.furtherOn n) := by
  rw [course, course, Part.deliveries_add, Nat.add_right_comm, Ending.outcome_add]
  simp only [List.map_append, List.map_map, List.map_cons, List.map_nil]
  rfl

namespace Layout

variable {l later : Layout} {inLiterals : Bool} {line : Nat}

/-- The newlines of a text, with those of literals or without. -/
def newlines (inLiterals : Bool) (l : Layout) : Nat := (l.parts.map (Part.newlines inLiterals)).sum

theorem newlines_true (h : l.ending = .complete) : l.newlines true = l.chars.count '\n' := by
  have hchars := l.flatMap_chars_parts
  rw [h, Ending.unread, List.append_nil] at hchars
  rw [newlines, Part.sum_newlines_true, hchars]

theorem parts_last_complete (gap : List Trivia) :
    (last gap .complete).parts = gap.map .trivia := List.append_nil _

/-- The end of a line brings no token. -/
theorem deliveries_endedParts (h : l.ending = .complete) :
    Part.deliveries inLiterals line l.endedParts = Part.deliveries inLiterals line l.parts := by
  induction l generalizing line with
  | last gap e =>
    obtain rfl : e = .complete := h
    rw [endedParts, parts_last_complete, Part.deliveries_trivia, Part.deliveries_trivia]
  | more gap p rest ih =>
    simp only [endedParts, parts, Part.deliveries_append, ih h]

theorem sum_newlines_endedParts (h : l.ending = .complete) :
    (l.endedParts.map (Part.newlines inLiterals)).sum = l.newlines inLiterals + 1 := by
  rw [newlines]
  induction l with
  | last gap e =>
    obtain rfl : e = .complete := h
    rw [endedParts, parts_last_complete, Part.sum_newlines_trivia, Part.sum_newlines_trivia,
      Trivia.flatMap_chars_endLine, List.count_append]
    rfl
  | more gap p rest ih =>
    simp only [endedParts, parts, List.map_append, List.sum_append, ih h]
    omega

/-- Once the last line has ended, each line ends with a newline. -/
theorem sum_impliedLineEnds_endedParts (hfits : l.Fits) (h : l.ending = .complete) :
    (l.endedParts.map Part.impliedLineEnds).sum = 0 := by
  have hgaps {gap : List Trivia} {rest : List Char} (hgap : Trivia.IsGap gap rest)
      (hrest : rest ≠ []) : ((gap.map Part.trivia).map Part.impliedLineEnds).sum = 0 := by
    rw [Part.sum_impliedLineEnds_trivia, hgap.sum_impliedLineEnds,
      hgap.not_endsInLineComment hrest]
    rfl
  induction l with
  | last gap e =>
    obtain rfl : e = .complete := h
    exact hgaps (hfits.1.endLine ['\n']) (List.cons_ne_nil _ _)
  | more gap p rest ih =>
    obtain ⟨hgap, hp, hrest⟩ := hfits
    have hne : p.chars ++ rest.chars ≠ [] := by simp [Piece.chars_ne_nil hp]
    simp only [endedParts, List.map_append, List.sum_append, hgaps hgap hne,
      p.sum_impliedLineEnds, ih hrest h]

/-- The course over joined texts is the one over the first up to its end, then the one over the
    second on lines further on. -/
theorem course_join (hfits : l.Fits) (h : l.ending = .complete) (inLiterals : Bool)
    (line : Nat) (marked : Bool) (later : Layout) :
    (Place.between marked (l.join later)).course inLiterals line =
      (Part.deliveries inLiterals line (Place.between marked l).parts).map Session.delivered ++
      ((Place.between false later).course inLiterals line).map
        (Session.furtherOn (1 + l.newlines inLiterals)) := by
  have hleading : ((Part.leading marked).map (Part.lineEnds inLiterals)).sum = 0 := by
    cases marked <;> rfl
  have hended : (l.endedParts.map (Part.lineEnds inLiterals)).sum = 1 + l.newlines inLiterals := by
    rw [Part.sum_lineEnds_eq, sum_newlines_endedParts h, sum_impliedLineEnds_endedParts hfits h]
    omega
  rw [← Place.course_add, Place.course, Place.course]
  simp only [Place.parts, Place.ending, parts_join, ending_join, Part.deliveries_append,
    List.map_append, List.sum_append, hleading, hended, deliveries_endedParts h]
  simp [Part.leading, Part.deliveries, Nat.add_assoc]

end Layout

namespace Session

/-- A text that a session reads to its end, a newline and a further text bring the tokens of both,
    each on its line: those of the second on lines further on by the newlines in front of it that
    count. The end is that of the second. -/
theorem course_of_join (options : Options) {first last : String} {layout : Layout}
    {deliveries : List (String × Nat)} {endLine : Nat}
    (hlayout : layout.Divides (Text.dropMark first.toList))
    (hfirst : (ofString options first).course =
      deliveries.map delivered ++ [(.ok none, endLine)])
    (hlast : last.toList.head? ≠ some '\uFEFF') :
    (ofString options (first ++ "\n" ++ last)).course =
        deliveries.map delivered ++ (ofString options last).course.map
          (furtherOn (1 + layout.newlines options.countLiteralLines)) ∧
      layout.newlines true = first.toList.count '\n' := by
  have hcourse := (standsAt_ofString options hlayout).course_eq rfl
  obtain ⟨hdeliveries, houtcome⟩ := List.append_inj' (hfirst.symm.trans hcourse) rfl
  have hend : layout.ending = .complete :=
    Ending.eq_complete_of_outcome (congrArg Prod.fst (List.cons.inj houtcome).1).symm
  obtain ⟨later, hlater⟩ := Layout.exists_divides last.toList
  have hjoined : (first ++ "\n" ++ last).toList = first.toList ++ '\n' :: last.toList := by
    simp [String.toList_append]
  have hdivides : (layout.join later).Divides (Text.dropMark (first ++ "\n" ++ last).toList) := by
    rw [hjoined, Text.dropMark_append_newline]
    exact Layout.divides_join hlayout hend hlater
  have hmark : ((first ++ "\n" ++ last).toList.head? == some '\uFEFF') =
      (first.toList.head? == some '\uFEFF') := by
    rw [hjoined]
    cases first.toList <;> rfl
  constructor
  · have hsecond := (standsAt_ofString options
      ((Text.dropMark_eq_self hlast).symm ▸ hlater)).course_eq rfl
    have hunmarked : (last.toList.head? == some '\uFEFF') = false := by simpa using hlast
    rw [hunmarked] at hsecond
    rw [(standsAt_ofString options hdivides).course_eq rfl, hmark,
      Layout.course_join hlayout.fits hend, hdeliveries, hsecond]
    rfl
  · rw [Layout.newlines_true hend, hlayout.chars, Text.count_newline_dropMark]

/-- The first text has a newline in a literal and ends in a line comment, the second in a literal
    that stays open. -/
theorem course_of_join_open_literal :
    (ofString {} "a 'x\ny' // c").course =
        [("a", 1), ("'", 1), ("x\ny", 1), ("'", 1)].map delivered ++ [(.ok none, 2)] ∧
      "b\n\"".toList.head? ≠ some '\uFEFF' ∧
      (ofString {} "a 'x\ny' // c\nb\n\"").course =
        [("a", 1), ("'", 1), ("x\ny", 1), ("'", 1)].map delivered ++
          (ofString {} "b\n\"").course.map (furtherOn 1) := by
  have hword : Piece.IsWord ['a'] :=
    ⟨by simp, by simp, List.forall_mem_singleton.mpr (by decide)⟩
  have hbody : Literal.IsBody .single ['x', '\n', 'y'] :=
    (Literal.split?_eq_some_iff.mp (by decide : Literal.split? .single "x\ny'".toList =
      some (['x', '\n', 'y'], []))).2
  have hlayout : (Layout.more [] (.word ['a'])
      (.more [.blank ' '] (.literal .single ['x', '\n', 'y'])
        (.last [.blank ' ', .line [' ', 'c'] false] .complete))).Divides
      (Text.dropMark "a 'x\ny' // c".toList) := by
    refine ⟨by decide, trivial, ⟨hword, ?_⟩, ⟨rfl, trivial⟩, hbody, ⟨rfl, ⟨?_, rfl⟩, trivial⟩,
      trivial⟩
    · intro c hc
      obtain rfl := Option.some.inj hc
      decide
    · decide
  have hfirst : (ofString {} "a 'x\ny' // c").course =
      [("a", 1), ("'", 1), ("x\ny", 1), ("'", 1)].map delivered ++ [(.ok none, 2)] :=
    ((standsAt_ofString {} hlayout).course_eq rfl).trans rfl
  have hlast : "b\n\"".toList.head? ≠ some '\uFEFF' := by decide
  exact ⟨hfirst, hlast, (course_of_join {} hlayout hfirst hlast).1⟩

end Session

end SchemaLex
