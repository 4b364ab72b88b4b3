-- SUMMARY: How calls lead a session from place to place, and which parts of its text it passes.
import SchemaLex.Proofs.Session.Calls
import SchemaLex.Proofs.Session.Place

/-!
# Passages

A call without a fault leads from one place in a layout to another, over the parts in between: one
stretch or none (`passes_of_perform`). Passages compose, so a run of calls is a passage too, and
what a session has passed since its start is a beginning of the parts of its text (`HasRead`).
-/

namespace SchemaLex.Session

/-- The session comes from one place to another over the parts `crossed`. -/
structure Passes (s : Session) (place : Place) (crossed : List Part) (s' : Session)
    (place' : Place) : Prop where
  standsAt : s'.StandsAt place'
  options : s'.options = s.options
  reader : s'.reader = crossed.foldl (Reader.cross s.options.countLiteralLines) s.reader
  parts : place.parts = crossed ++ place'.parts
  chars : place.chars = crossed.flatMap Part.chars ++ place'.chars
  lastGap : place'.lastGap = place.lastGap
  ending : place'.ending = place.ending

variable {s s' s'' looked : Session} {place place' place'' : Place} {crossed crossed' : List Part}
  {call : Call} {calls : List Call} {reply : Reply} {replies : List Reply} {new : List String}

/-- Only the reader, the open literal and the options tell where a session stands. -/
theorem StandsAt.congr (h : s.StandsAt place) (hreader : s'.reader = s.reader)
    (hopened : s'.opened = s.opened) : s'.StandsAt place :=
  ⟨hreader ▸ h.ahead, h.fits, hopened.trans h.opened, by rw [hreader]; exact h.mark⟩

theorem Passes.congr (h : s.Passes place crossed s' place') (hoptions : s''.options = s'.options)
    (hreader : s''.reader = s'.reader) (hopened : s''.opened = s'.opened) :
    s.Passes place crossed s'' place' :=
  { h with
    standsAt := h.standsAt.congr hreader hopened
    options := hoptions.trans h.options
    reader := hreader.trans h.reader }

theorem StandsAt.passes_nil (h : s.StandsAt place) : s.Passes place [] s place :=
  ⟨h, rfl, rfl, rfl, rfl, rfl, rfl⟩

theorem Passes.trans (h : s.Passes place crossed s' place')
    (h' : s'.Passes place' crossed' s'' place'') :
    s.Passes place (crossed ++ crossed') s'' place'' where
  standsAt := h'.standsAt
  options := h'.options.trans h.options
  reader := by rw [h'.reader, h.reader, h.options, List.foldl_append]
  parts := by rw [h.parts, h'.parts, List.append_assoc]
  chars := by rw [h.chars, h'.chars, List.flatMap_append, List.append_assoc]
  lastGap := h'.lastGap.trans h.lastGap
  ending := h'.ending.trans h.ending

theorem Crosses.passes {stretch : Stretch} (hcross : s.Crosses stretch s')
    (hstep : place.Step stretch place') (hstands : s'.StandsAt place') :
    s.Passes place stretch.parts s' place' where
  standsAt := hstands
  options := hcross.options
  reader := hcross.reader
  parts := hstep.parts_eq
  chars := hstep.chars_eq
  lastGap := hstep.lastGap_eq
  ending := hstep.ending_eq

/-- A scan for want of a waiting token brings the tokens of the stretch. -/
theorem Crosses.tokens {stretch : Stretch} (hcross : s.Crosses stretch s') (hqueue : s.queue = []) :
    stretch.tokens.head?.toList ++ s'.queue = stretch.tokens := by
  rw [hcross.queue, hqueue]
  cases stretch.tokens <;> rfl

/-! ## One Call -/

/-- Looking crosses at most one stretch, and brings the tokens of what it crosses. -/
theorem StandsAt.passes_of_looks (h : s.StandsAt place) (hlooks : s.Looks new looked) :
    ∃ crossed place', s.Passes place crossed looked place' ∧ new = crossed.flatMap Part.tokens := by
  cases hlooks with
  | stay => exact ⟨[], place, h.passes_nil, rfl⟩
  | scan hqueue hscan =>
    obtain ⟨stretch, place', hstep, rfl, hcross, hstands⟩ := h.of_scan hscan
    refine ⟨stretch.parts, place', hcross.passes hstep hstands, ?_⟩
    rw [hcross.tokens hqueue, stretch.flatMap_tokens_parts]

/-- A call without a fault passes some parts, and the tokens of these come to the queue behind those
    that wait. -/
theorem StandsAt.passes_of_perform (h : s.StandsAt place)
    (hperform : s.perform call = (.ok reply, s')) :
    ∃ crossed place', s.Passes place crossed s' place' ∧
      (call.taken reply).toList ++ s'.queue =
        s.queue ++ call.added.toList ++ crossed.flatMap Part.tokens := by
  obtain ⟨new, looked, hperforms⟩ := performs_of_perform hperform
  obtain ⟨crossed, place', hpasses, rfl⟩ := h.passes_of_looks hperforms.looks
  exact ⟨crossed, place', hpasses.congr hperforms.options hperforms.reader hperforms.opened,
    hperforms.queue⟩

/-! ## Runs -/

/-- A run without a fault answers its first call without one and goes on from there. -/
theorem run_cons_eq_ok (h : s.run (call :: calls) = (replies.map .ok, s'')) :
    ∃ reply replies' s', s.perform call = (.ok reply, s') ∧ replies = reply :: replies' ∧
      s'.run calls = (replies'.map .ok, s'') := by
  obtain ⟨hreplies, hlast⟩ := Prod.mk.inj h
  cases replies with
  | nil => cases hreplies
  | cons reply replies' =>
    obtain ⟨hreply, hlater⟩ := List.cons.inj hreplies
    exact ⟨reply, replies', (s.perform call).2, Prod.ext hreply rfl, rfl, Prod.ext hlater hlast⟩

/-- A run without a fault is a passage. -/
theorem StandsAt.passes_of_run (h : s.StandsAt place)
    (hrun : s.run calls = (replies.map .ok, s')) :
    ∃ crossed place', s.Passes place crossed s' place' := by
  induction calls generalizing s place replies with
  | nil =>
    obtain ⟨-, rfl⟩ := Prod.mk.inj hrun
    exact ⟨[], place, h.passes_nil⟩
  | cons call calls ih =>
    obtain ⟨reply, replies', t, hperform, rfl, hlater⟩ := run_cons_eq_ok hrun
    obtain ⟨crossed, place', hpasses, -⟩ := h.passes_of_perform hperform
    obtain ⟨crossed', place'', hpasses'⟩ := ih hpasses.standsAt hlater
    exact ⟨crossed ++ crossed', place'', hpasses.trans hpasses'⟩

/-- The session has read these parts of the text and stands at the place behind them. -/
structure HasRead (s : Session) (options : Options) (text : String) (layout : Layout)
    (read : List Part) (place : Place) : Prop where
  divides : layout.Divides (Text.dropMark text.toList)
  standsAt : s.StandsAt place
  options : s.options = options
  parts : Text.parts text.toList layout = read ++ place.parts
  chars : text.toList = read.flatMap Part.chars ++ place.chars
  behind : s.reader.behind = (read.flatMap Part.chars).reverse
  line : s.line = Part.lineBehind s.options.countLiteralLines read
  lastGap : place.lastGap = layout.lastGap
  ending : place.ending = layout.ending

variable {options : Options} {text : String} {layout : Layout} {read : List Part}

theorem hasRead_ofString (options : Options)
    (h : layout.Divides (Text.dropMark text.toList)) :
    (ofString options text).HasRead options text layout []
      (.between (text.toList.head? == some '\uFEFF') layout) where
  divides := h
  standsAt := standsAt_ofString options h
  options := rfl
  parts := rfl
  chars := (standsAt_ofString options h).ahead
  behind := rfl
  line := rfl
  lastGap := rfl
  ending := rfl

theorem HasRead.of_passes (h : s.HasRead options text layout read place)
    (hpasses : s.Passes place crossed s' place') :
    s'.HasRead options text layout (read ++ crossed) place' where
  divides := h.divides
  standsAt := hpasses.standsAt
  options := hpasses.options.trans h.options
  parts := by rw [h.parts, hpasses.parts, List.append_assoc]
  chars := by rw [h.chars, hpasses.chars, List.flatMap_append, List.append_assoc]
  behind := by
    rw [hpasses.reader, Reader.behind_foldl_cross (h.standsAt.ahead.trans hpasses.chars), h.behind,
      List.flatMap_append, List.reverse_append]
  line := by
    rw [Session.line, hpasses.reader, hpasses.options,
      Reader.line_foldl_cross (h.standsAt.ahead.trans hpasses.chars)]
    change s.line + _ = _
    rw [h.line, Part.lineBehind_append]
  lastGap := hpasses.lastGap.trans h.lastGap
  ending := hpasses.ending.trans h.ending

/-- What was ahead of a session is what it has read since and what is ahead of it now. -/
theorem HasRead.parts_ahead (h : s.HasRead options text layout read place)
    (h' : s'.HasRead options text layout (read ++ crossed) place') :
    place.parts = crossed ++ place'.parts := by
  have hparts := h.parts.symm.trans h'.parts
  rwa [List.append_assoc, List.append_cancel_left_eq] at hparts

theorem HasRead.congr (h : s.HasRead options text layout read place)
    (hoptions : s'.options = s.options) (hreader : s'.reader = s.reader)
    (hopened : s'.opened = s.opened) : s'.HasRead options text layout read place where
  divides := h.divides
  standsAt := h.standsAt.congr hreader hopened
  options := hoptions.trans h.options
  parts := h.parts
  chars := h.chars
  behind := hreader ▸ h.behind
  line := by
    rw [hoptions, ← h.line, Session.line, hreader]
    rfl
  lastGap := h.lastGap
  ending := h.ending

/-- A session that met no fault has read some parts of its text. -/
theorem hasRead_of_run (hrun : (ofString options text).run calls = (replies.map .ok, s)) :
    ∃ layout read place, s.HasRead options text layout read place := by
  obtain ⟨layout, hlayout⟩ := Layout.exists_divides (Text.dropMark text.toList)
  have hstart := hasRead_ofString options hlayout
  obtain ⟨read, place, hpasses⟩ := hstart.standsAt.passes_of_run hrun
  exact ⟨layout, [] ++ read, place, hstart.of_passes hpasses⟩

theorem HasRead.source (h : s.HasRead options text layout read place) :
    s.reader.source = text.toList := by
  rw [Reader.source, h.behind, h.standsAt.ahead, List.reverse_reverse, ← h.chars]

end SchemaLex.Session
