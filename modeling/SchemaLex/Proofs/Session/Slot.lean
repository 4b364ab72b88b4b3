-- SUMMARY: Which comment waits in the slot of a session: the latest behind it, until handed out.
import SchemaLex.Proofs.Doc.Captured
import SchemaLex.Proofs.Session.Passage

/-!
# The Slot

What waits in the slot of a session is told by what the session has read and what it has handed
out: the latest documentation comment behind it, unless a lookup brought that very comment before
(`slot_of_run`). Nothing else that happened on the way counts.
-/

namespace SchemaLex

namespace Place

variable {place place' : Place} {stretch : Stretch}

/-- The gap of a stretch ends where the stretch goes on or the text ends. -/
theorem Step.isGap (h : place.Step stretch place') (hfits : place.Fits) :
    Trivia.IsGap stretch.gap (stretch.last.toList.flatMap Part.chars ++ place'.chars) := by
  have hchars := h.chars_eq
  rw [Stretch.flatMap_chars_parts, List.append_assoc, List.append_assoc] at hchars
  cases h with
  | body => trivial
  | stay => trivial
  | plain =>
    have := List.append_cancel_left (List.append_cancel_left hchars)
    exact this ▸ hfits.1
  | quote =>
    have := List.append_cancel_left (List.append_cancel_left hchars)
    exact this ▸ hfits.1
  | openQuote => exact hfits.1
  | finish => exact hfits.1

/-- Behind a stretch no `//` comment stands directly above, or the text has no further gap. -/
theorem Step.linesAbove (h : place.Step stretch place') (read : List Part) :
    place'.parts = [] ∨ Part.linesAbove (read ++ stretch.parts).reverse = [] := by
  cases h with
  | openQuote => exact .inl rfl
  | finish => exact .inl rfl
  | stay => exact .inl rfl
  | _ => exact .inr (by simp [Stretch.parts, Part.linesAbove])

end Place

namespace Session

/-- The parts of its text that lie behind a session. -/
def partsBehind (layout : Layout) (s : Session) : List Part :=
  Part.within s.reader.behind.length (Text.parts s.reader.source layout)

/-- The latest documentation comment behind a session, with the parts up to its end. -/
def docBehind (layout : Layout) (s : Session) : Option (Doc × List Part) :=
  Part.latest s.options (partsBehind layout s).reverse

/-- One of the calls hands out the documentation comment that ends behind the parts `upTo`. -/
def HandsOut (s : Session) (layout : Layout) (calls : List Call) (upTo : List Part) : Prop :=
  ∃ first call last text doc s', calls = first ++ call :: last ∧
    (s.run first).2.perform call = (.ok (.doc (some text)), s') ∧
    docBehind layout s' = some (doc, upTo)

variable {s s' : Session} {options : Options} {text : String} {layout : Layout}
  {read : List Part} {place place' : Place} {returned : List Part → Prop} {call : Call}
  {reply : Reply} {calls : List Call} {replies : List Reply}

theorem HasRead.partsBehind_eq (h : s.HasRead options text layout read place) :
    partsBehind layout s = read := by
  have hne : ∀ p ∈ place.parts, p.chars ≠ [] := by
    have hall : ∀ p ∈ Text.parts text.toList layout, p.chars ≠ [] :=
      Text.chars_ne_nil_of_mem_parts h.divides.fits
    rw [h.parts] at hall
    exact (List.forall_mem_append.mp hall).2
  rw [partsBehind, h.source, h.parts, h.behind, List.length_reverse, Part.within_append hne]

theorem HasRead.docBehind_eq (h : s.HasRead options text layout read place) :
    docBehind layout s = Part.latest options read.reverse := by
  rw [docBehind, h.partsBehind_eq, h.options]

/-! ## What the Slot Holds -/

/-- The latest comment behind the session waits in the slot, or it is among the returned ones. -/
structure SlotHolds (s : Session) (options : Options) (read : List Part) (place : Place)
    (returned : List Part → Prop) : Prop where
  empty : Part.latest options read.reverse = none → s.slot = none
  gone {doc upTo} : Part.latest options read.reverse = some (doc, upTo) → returned upTo →
    s.slot = none
  waiting {doc upTo} : Part.latest options read.reverse = some (doc, upTo) → ¬ returned upTo →
    s.slot = some doc
  /-- What was returned lies behind the session. -/
  bound {upTo} : returned upTo → upTo.length ≤ read.length
  /-- The next gap starts no further line of a comment behind the session. -/
  apart : place.parts = [] ∨ Part.linesAbove read.reverse = []

theorem slotHolds_ofString (options : Options) (text : String) (place : Place) :
    (ofString options text).SlotHolds options [] place fun _ => False where
  empty _ := rfl
  gone hlatest := nomatch hlatest
  waiting hlatest := nomatch hlatest
  bound h := h.elim
  apart := .inr rfl

/-- A comment in the slot is the latest, and was not returned before. -/
theorem SlotHolds.of_slot {doc : Doc} (h : s.SlotHolds options read place returned)
    (hslot : s.slot = some doc) :
    ∃ upTo, Part.latest options read.reverse = some (doc, upTo) ∧ ¬ returned upTo := by
  cases hlatest : Part.latest options read.reverse with
  | none => cases hslot.symm.trans (h.empty hlatest)
  | some found =>
    obtain ⟨found, upTo⟩ := found
    by_cases hreturned : returned upTo
    · cases hslot.symm.trans (h.gone hlatest hreturned)
    · obtain rfl := Option.some.inj (hslot.symm.trans (h.waiting hlatest hreturned))
      exact ⟨upTo, rfl, hreturned⟩

theorem HasRead.reader_behind (h : s.HasRead options text layout read place) :
    s.reader.Behind options.countLiteralLines read.reverse where
  behind := by rw [h.behind, List.reverse_reverse]
  line := by
    rw [List.reverse_reverse, ← h.options]
    exact h.line

/-- The documentation comments that a session captures in the gap ahead are told by its parts. -/
theorem HasRead.captured_of_gap {marked : Bool} {gap : List Trivia} {rest : List Char}
    {tail : List Part} (h : s.HasRead options text layout read place)
    (hcut : place.parts = [] ∨ Part.linesAbove read.reverse = []) (hmarked : place.marked = marked)
    (hparts : place.parts = Part.leading marked ++ gap.map .trivia ++ tail)
    (hchars : place.chars =
      (Part.leading marked).flatMap Part.chars ++ (gap.flatMap Trivia.chars ++ rest))
    (hgap : Trivia.IsGap gap rest) :
    Doc.captured options.everyComment s.reader.skipMark gap =
      (Part.docs options read.reverse (Part.leading marked ++ gap.map .trivia)).map (·.1) := by
  have hskip := h.standsAt.skipMark
  rw [hmarked, h.options] at hskip
  have hahead := h.standsAt.ahead.trans hchars
  have hbehind := h.reader_behind.foldl_cross hahead
  have hgapAhead : s.reader.skipMark.ahead = gap.flatMap Trivia.chars ++ rest := by
    rw [hskip, Reader.ahead_foldl_cross hahead]
  rw [← hskip] at hbehind
  rw [Part.docs_leading_append]
  -- At the end of the text there is no gap left that could continue a comment.
  rcases hcut with hnil | habove
  · have hgapNil : gap = [] := by
      rw [hparts] at hnil
      exact List.map_eq_nil_iff.mp
        (List.append_eq_nil_iff.mp (List.append_eq_nil_iff.mp hnil).1).2
    rw [hgapNil, Doc.captured_nil]
    rfl
  · refine Doc.captured_eq_docs hbehind hgapAhead hgap ?_
    cases marked with
    | false => exact habove
    | true => rfl

/-- The same for the stretch that a scan crosses: the last part of it is no comment. -/
theorem HasRead.captured_of_step {stretch : Stretch} (h : s.HasRead options text layout read place)
    (hcut : place.parts = [] ∨ Part.linesAbove read.reverse = [])
    (hstep : place.Step stretch place') :
    Doc.captured options.everyComment s.reader.skipMark stretch.gap =
      (Part.docs options read.reverse stretch.parts).map (·.1) := by
  have hparts := hstep.parts_eq
  rw [Stretch.parts, List.append_assoc _ stretch.last.toList] at hparts
  have hchars := hstep.chars_eq
  rw [Stretch.flatMap_chars_parts, List.append_assoc, List.append_assoc] at hchars
  rw [h.captured_of_gap hcut hstep.marked_eq.1.symm hparts hchars
    (hstep.isGap h.standsAt.fits), Stretch.parts]
  cases hstep with
  | finish => rw [Option.toList_none, List.append_nil]
  | stay => rfl
  | _ => rw [Option.toList_some, Part.docs_append_singleton (by simp)]

/-- What a scan captures is the latest behind the stretch that it crosses, if it captures any. -/
theorem SlotHolds.latestIn {stretch : Stretch} (h : s.SlotHolds options read place returned)
    (hread : s.HasRead options text layout read place) (hstep : place.Step stretch place') :
    Doc.LatestIn options read.reverse
      (Doc.captured options.everyComment s.reader.skipMark stretch.gap)
      (Part.latest options (read ++ stretch.parts).reverse) := by
  rw [hread.captured_of_step h.apart hstep, List.reverse_append]
  exact Part.latestIn_docs

/-- A scan puts the last documentation comment of its gap in the slot, if there is one. -/
theorem SlotHolds.of_crosses {stretch : Stretch} (h : s.SlotHolds options read place returned)
    (hread : s.HasRead options text layout read place) (hstep : place.Step stretch place')
    (hcross : s.Crosses stretch s') :
    s'.SlotHolds options (read ++ stretch.parts) place' returned := by
  have hslot := hcross.slot
  rw [hread.options] at hslot
  have hbound {upTo} (hreturned : returned upTo) :
      upTo.length ≤ (read ++ stretch.parts).length := by
    have := h.bound hreturned
    simp
    omega
  cases h.latestIn hread hstep with
  | older hdocs hlatest =>
    rw [hdocs] at hslot
    refine ⟨fun hnone => ?_, fun hsome hreturned => ?_, fun hsome hreturned => ?_, hbound,
      hstep.linesAbove read⟩
    · exact hslot.trans (h.empty (hlatest.symm.trans hnone))
    · exact hslot.trans (h.gone (hlatest.symm.trans hsome) hreturned)
    · exact hslot.trans (h.waiting (hlatest.symm.trans hsome) hreturned)
  | @newer doc upTo hdocs hlatest hlength =>
    rw [hdocs] at hslot
    refine ⟨fun hnone => ?_, fun hsome hreturned => ?_, fun hsome hreturned => ?_, hbound,
      hstep.linesAbove read⟩
    · cases hlatest.symm.trans hnone
    · obtain ⟨rfl, rfl⟩ := Prod.mk.inj (Option.some.inj (hlatest.symm.trans hsome))
      have := h.bound hreturned
      rw [List.length_reverse] at hlength
      omega
    · obtain ⟨rfl, rfl⟩ := Prod.mk.inj (Option.some.inj (hlatest.symm.trans hsome))
      exact hslot

/-- Only a comment that ends in the gap it crosses changes the slot in a scan. -/
theorem SlotHolds.slot_of_crosses {stretch : Stretch} (h : s.SlotHolds options read place returned)
    (hread : s.HasRead options text layout read place) (hstep : place.Step stretch place')
    (hcross : s.Crosses stretch s') :
    s'.slot = s.slot ∨ ∃ doc upTo,
      Part.latest options (read ++ stretch.parts).reverse = some (doc, upTo) ∧
      read.length < upTo.length ∧ s'.slot = some doc := by
  have hslot := hcross.slot
  rw [hread.options] at hslot
  cases h.latestIn hread hstep with
  | older hdocs hlatest =>
    rw [hdocs] at hslot
    exact .inl hslot
  | @newer doc upTo hdocs hlatest hlength =>
    rw [hdocs] at hslot
    exact .inr ⟨doc, upTo, hlatest, by rwa [List.length_reverse] at hlength, hslot⟩

theorem SlotHolds.congr {returned' : List Part → Prop} (h : s.SlotHolds options read place returned)
    (hslot : s'.slot = s.slot) (hreturned : ∀ upTo, returned' upTo ↔ returned upTo) :
    s'.SlotHolds options read place returned' where
  empty hnone := hslot.trans (h.empty hnone)
  gone hsome hgone := hslot.trans (h.gone hsome ((hreturned _).mp hgone))
  waiting hsome hwaiting := hslot.trans (h.waiting hsome (mt (hreturned _).mpr hwaiting))
  bound hgone := h.bound ((hreturned _).mp hgone)
  apart := h.apart

/-- A comment that leaves the slot is returned. -/
theorem SlotHolds.of_handedOut {doc : Doc} {upTo : List Part}
    (h : s.SlotHolds options read place returned)
    (hlatest : Part.latest options read.reverse = some (doc, upTo)) (hslot : s'.slot = none) :
    s'.SlotHolds options read place fun found => returned found ∨ found = upTo where
  empty _ := hslot
  gone _ _ := hslot
  waiting hsome hwaiting := by
    obtain ⟨-, rfl⟩ := Prod.mk.inj (Option.some.inj (hlatest.symm.trans hsome))
    exact absurd (.inr rfl) hwaiting
  bound hgone := by
    rcases hgone with hgone | rfl
    · exact h.bound hgone
    · simpa using (Part.suffix_of_latest hlatest).length_le
  apart := h.apart

/-! ## Calls -/

/-- What a call that brings no fault does to the slot. -/
structure Attributes (s : Session) (layout : Layout) (reply : Reply) (s' : Session) : Prop where
  /-- The comment that a lookup brings is the latest behind the session, and leaves the slot. -/
  handed {found : String} : reply = .doc (some found) →
    ∃ doc upTo, docBehind layout s' = some (doc, upTo) ∧ doc.text = found ∧ s'.slot = none
  /-- Otherwise the slot changes only if a later comment was crossed. -/
  kept : (∀ found, reply ≠ .doc (some found)) → s'.slot = s.slot ∨ ∃ doc upTo,
    docBehind layout s' = some (doc, upTo) ∧ (partsBehind layout s).length < upTo.length ∧
    s'.slot = some doc

theorem SlotHolds.of_looks {new : List String} {looked : Session}
    (h : s.SlotHolds options read place returned)
    (hread : s.HasRead options text layout read place) (hlooks : s.Looks new looked) :
    ∃ crossed place', looked.HasRead options text layout (read ++ crossed) place' ∧
      looked.SlotHolds options (read ++ crossed) place' returned ∧
      (looked.slot = s.slot ∨ ∃ doc upTo,
        Part.latest options (read ++ crossed).reverse = some (doc, upTo) ∧
        read.length < upTo.length ∧ looked.slot = some doc) := by
  cases hlooks with
  | stay =>
    refine ⟨[], place, ?_, ?_, .inl rfl⟩
    · rw [List.append_nil]
      exact hread
    · rw [List.append_nil]
      exact h
  | scan hqueue hscan =>
    obtain ⟨stretch, place', hstep, -, hcross, hstands⟩ := hread.standsAt.of_scan hscan
    exact ⟨stretch.parts, place', hread.of_passes (hcross.passes hstep hstands),
      h.of_crosses hread hstep hcross, h.slot_of_crosses hread hstep hcross⟩

theorem SlotHolds.of_perform (h : s.SlotHolds options read place returned)
    (hread : s.HasRead options text layout read place)
    (hperform : s.perform call = (.ok reply, s')) :
    ∃ crossed place', s'.HasRead options text layout (read ++ crossed) place' ∧
      s'.SlotHolds options (read ++ crossed) place' (fun upTo => returned upTo ∨
        ∃ text doc, reply = .doc (some text) ∧ docBehind layout s' = some (doc, upTo)) ∧
      s.Attributes layout reply s' := by
  obtain ⟨new, looked, hperforms⟩ := performs_of_perform hperform
  obtain ⟨crossed, place', hlooked, hholds, hslot⟩ := h.of_looks hread hperforms.looks
  have hread' : s'.HasRead options text layout (read ++ crossed) place' :=
    hlooked.congr hperforms.options hperforms.reader hperforms.opened
  refine ⟨crossed, place', hread', ?_⟩
  rw [← hread.partsBehind_eq] at hslot
  rcases hperforms.slot with ⟨doc, rfl, hdoc, hnone⟩ | ⟨hreply, hsame⟩
  · obtain ⟨upTo, hlatest, -⟩ := hholds.of_slot hdoc
    have hbehind := hread'.docBehind_eq.trans hlatest
    refine ⟨(hholds.of_handedOut hlatest hnone).congr rfl fun found => ?_, ?_, ?_⟩
    · refine or_congr_right ⟨?_, ?_⟩
      · rintro ⟨_, _, -, hfound⟩
        exact (Prod.mk.inj (Option.some.inj (hfound.symm.trans hbehind))).2
      · rintro rfl
        exact ⟨doc.text, doc, rfl, hbehind⟩
    · intro text heq
      obtain rfl := Option.some.inj (Reply.doc.inj heq)
      exact ⟨doc, upTo, hbehind, rfl, hnone⟩
    · intro hreply
      exact absurd rfl (hreply doc.text)
  · refine ⟨hholds.congr hsame fun found => ?_, ?_, ?_⟩
    · refine or_iff_left ?_
      rintro ⟨text, _, heq, -⟩
      exact hreply text heq
    · intro text heq
      exact absurd heq (hreply text)
    · intro _
      rw [hsame, hread'.docBehind_eq]
      rwa [hread.partsBehind_eq] at hslot ⊢

/-! ## Runs -/

theorem handsOut_cons_iff {upTo : List Part} : s.HandsOut layout (call :: calls) upTo ↔
    (∃ text doc s', s.perform call = (.ok (.doc (some text)), s') ∧
      docBehind layout s' = some (doc, upTo)) ∨
    (s.perform call).2.HandsOut layout calls upTo := by
  constructor
  · rintro ⟨first, call', last, text, doc, s', hcalls, hperform, hbehind⟩
    cases first with
    | nil =>
      obtain ⟨rfl, -⟩ := List.cons.inj hcalls
      exact .inl ⟨text, doc, s', hperform, hbehind⟩
    | cons head first =>
      obtain ⟨rfl, rfl⟩ := List.cons.inj hcalls
      exact .inr ⟨first, call', last, text, doc, s', rfl, hperform, hbehind⟩
  · rintro (⟨text, doc, s', hperform, hbehind⟩ |
      ⟨first, call', last, text, doc, s', rfl, hperform, hbehind⟩)
    · exact ⟨[], call, calls, text, doc, s', rfl, hperform, hbehind⟩
    · exact ⟨call :: first, call', last, text, doc, s', rfl, hperform, hbehind⟩

theorem SlotHolds.of_run (h : s.SlotHolds options read place returned)
    (hread : s.HasRead options text layout read place)
    (hrun : s.run calls = (replies.map .ok, s')) :
    ∃ read' place', s'.HasRead options text layout read' place' ∧
      s'.SlotHolds options read' place' fun upTo =>
        returned upTo ∨ s.HandsOut layout calls upTo := by
  induction calls generalizing s read place returned replies with
  | nil =>
    obtain ⟨-, rfl⟩ := Prod.mk.inj hrun
    refine ⟨read, place, hread, h.congr rfl fun upTo => or_iff_left ?_⟩
    rintro ⟨first, call, last, -, -, -, hcalls, -⟩
    simp at hcalls
  | cons call calls ih =>
    obtain ⟨reply, replies', t, hperform, rfl, hlater⟩ := run_cons_eq_ok hrun
    obtain ⟨crossed, place', hread', hholds, -⟩ := h.of_perform hread hperform
    obtain ⟨read'', place'', hread'', hholds'⟩ := ih hholds hread' hlater
    refine ⟨read'', place'', hread'', hholds'.congr rfl fun upTo => ?_⟩
    rw [handsOut_cons_iff, hperform, or_assoc]
    refine or_congr_right (or_congr_left ⟨?_, ?_⟩)
    · rintro ⟨text, doc, _, heq, hbehind⟩
      obtain ⟨hreply, rfl⟩ := Prod.mk.inj heq
      exact ⟨text, doc, Except.ok.inj hreply, hbehind⟩
    · rintro ⟨text, doc, rfl, hbehind⟩
      exact ⟨text, doc, t, rfl, hbehind⟩

/-- The slot of a session without a fault holds the latest documentation comment behind it, unless
    a call brought that very comment before. A call changes the slot only by bringing the comment
    or by crossing a later one. -/
theorem slot_of_run (hrun : (ofString options text).run calls = (replies.map .ok, s)) :
    ∃ layout : Layout, layout.Divides (Text.dropMark text.toList) ∧
      s.reader.behind.reverse = (partsBehind layout s).flatMap Part.chars ∧
      s.line = Part.lineBehind options.countLiteralLines (partsBehind layout s) ∧
      (docBehind layout s = none → s.slot = none) ∧
      (∀ doc upTo, docBehind layout s = some (doc, upTo) →
        ((ofString options text).HandsOut layout calls upTo → s.slot = none) ∧
        (¬ (ofString options text).HandsOut layout calls upTo → s.slot = some doc)) ∧
      ∀ call reply s', s.perform call = (.ok reply, s') → s.Attributes layout reply s' := by
  obtain ⟨layout, hlayout⟩ := Layout.exists_divides (Text.dropMark text.toList)
  obtain ⟨read, place, hread, hholds⟩ :=
    (slotHolds_ofString options text _).of_run (hasRead_ofString options hlayout) hrun
  refine ⟨layout, hlayout, ?_, ?_, ?_, ?_, ?_⟩
  · rw [hread.partsBehind_eq, hread.behind, List.reverse_reverse]
  · rw [hread.partsBehind_eq, hread.line, hread.options]
  · intro hnone
    exact hholds.empty (hread.docBehind_eq.symm.trans hnone)
  · intro doc upTo hsome
    have hlatest := hread.docBehind_eq.symm.trans hsome
    refine ⟨fun hgone => hholds.gone hlatest (.inr hgone), fun hwaiting => ?_⟩
    exact hholds.waiting hlatest (not_or.mpr ⟨id, hwaiting⟩)
  · intro call reply s' hperform
    obtain ⟨-, -, -, -, hattributes⟩ := hholds.of_perform hread hperform
    exact hattributes

/-- Behind the token below a documentation comment, with a plain comment in between. -/
theorem slot_of_run_plain_below :
    ∃ layout upTo, docBehind layout ((ofString {} "/// d\n// e\nx").run [.next]).2 =
      some (⟨.line, "d", 1⟩, upTo) := by
  have hrun : (ofString {} "/// d\n// e\nx").run [.next] =
      ([Reply.token (some "x")].map .ok, ((ofString {} "/// d\n// e\nx").run [.next]).2) := by
    decide +kernel
  obtain ⟨layout, -, -, -, hnone, hsome, -⟩ := slot_of_run hrun
  have hslot : ((ofString {} "/// d\n// e\nx").run [.next]).2.slot = some ⟨.line, "d", 1⟩ := by
    decide +kernel
  cases hdoc : docBehind layout ((ofString {} "/// d\n// e\nx").run [.next]).2 with
  | none => cases hslot.symm.trans (hnone hdoc)
  | some found =>
    obtain ⟨hgone, hwaiting⟩ := hsome found.1 found.2 hdoc
    have hheld : ((ofString {} "/// d\n// e\nx").run [.next]).2.slot = some found.1 :=
      hwaiting fun hout => by cases hslot.symm.trans (hgone hout)
    refine ⟨layout, found.2, ?_⟩
    rw [hdoc, ← Option.some.inj (hheld.symm.trans hslot)]

end Session

end SchemaLex
