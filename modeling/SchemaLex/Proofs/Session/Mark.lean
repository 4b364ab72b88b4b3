-- SUMMARY: A byte order mark in front of a text: what a session shows of it, and what it hides.
import SchemaLex.Proofs.Doc.Mark
import SchemaLex.Proofs.Session.Lockstep
import SchemaLex.Proofs.Session.Scanning

/-!
# Sessions behind a Byte Order Mark

A session over a text with a byte order mark in front and one over the text itself run in lockstep,
unless the mark shows in the comments of the first gap. `replies_mark_iff` says when it does:
exactly if every comment is documentation and the mark splits the comments that the text starts
with.
-/

namespace SchemaLex.Session

/-- The text starts with a run of line comments that holds the last documentation comment in front
    of its first lexeme, or of its end, and the first line of that run has text. -/
def MarkSplits (cs : List Char) : Prop :=
  Doc.SplitsRun (Trivia.gap cs).1 ∧ ¬ Trivia.OpensBlock (Trivia.gap cs).2

instance (cs : List Char) : Decidable (MarkSplits cs) := inferInstanceAs (Decidable (_ ∧ _))

/-- Nothing is read yet, and a mark stands in front of the text of the second session. -/
def FacesMark (s t : Session) : Prop :=
  ∃ cs, cs.head? ≠ some '\uFEFF' ∧ s.reader = .ofChars cs ∧ t.reader = .ofChars ('\uFEFF' :: cs) ∧
    s.opened = none

/-- A mark lies behind the second session, and both are past the first indentation. -/
def PassedMark (s t : Session) : Prop :=
  t.reader = s.reader.behindMark ∧ (s.reader.ahead = [] ∨ s.reader.Underway)

/-- The second session differs from the first only by a mark in front of its text. The records of
    what happened may differ. -/
structure BehindMark (s t : Session) : Prop where
  options : t.options = s.options
  queue : t.queue = s.queue
  opened : t.opened = s.opened
  slot : t.slot = s.slot
  reader : FacesMark s t ∧ ¬ (s.options.everyComment ∧ MarkSplits s.reader.ahead) ∨ PassedMark s t

variable {s t : Session}

/-! ## Readers -/

theorem FacesMark.skipMark (h : FacesMark s t) :
    s.reader.skipMark = s.reader ∧ t.reader.skipMark = s.reader.behindMark := by
  obtain ⟨cs, hhead, hs, ht, -⟩ := h
  rw [hs, ht]
  exact ⟨Reader.skipMark_of_head?_ne hhead, rfl⟩

theorem PassedMark.skipMark (h : PassedMark s t) :
    s.reader.skipMark = s.reader ∧ t.reader.skipMark = s.reader.behindMark := by
  obtain ⟨ht, hpast⟩ := h
  constructor
  · rcases hpast with hnil | hunderway
    · exact Reader.skipMark_of_head?_ne (by simp [hnil])
    · exact hunderway.skipMark
  · rw [ht]
    exact Reader.skipMark_of_behind_ne_nil (by simp [Reader.behindMark])

theorem BehindMark.skipMark (h : BehindMark s t) :
    s.reader.skipMark = s.reader ∧ t.reader.skipMark = s.reader.behindMark :=
  h.reader.elim (fun hfaces => hfaces.1.skipMark) PassedMark.skipMark

theorem BehindMark.toEnd (h : BehindMark s t) : t.reader.toEnd = s.reader.toEnd.behindMark := by
  rcases h.reader with ⟨⟨cs, -, hs, ht, -⟩, -⟩ | ⟨ht, -⟩
  · rw [hs, ht]
    simp [Reader.behindMark, Reader.toEnd, Reader.leap, Reader.ofChars]
  · rw [ht, Reader.toEnd_behindMark]

theorem BehindMark.line (h : BehindMark s t) : t.line = s.line := by
  rcases h.reader with ⟨⟨cs, -, hs, ht, -⟩, -⟩ | ⟨ht, -⟩
  · rw [Session.line, Session.line, hs, ht]
    rfl
  · rw [Session.line, ht]
    rfl

/-! ## Gaps -/

section Gaps

variable (hmark : s.reader.skipMark = s.reader ∧ t.reader.skipMark = s.reader.behindMark)

include hmark

theorem gapItems_of_mark : t.gapItems = s.gapItems := by
  rw [gapItems, gapItems, hmark.1, hmark.2, Reader.ahead_behindMark]

theorem reader_skipGap_of_mark : t.skipGap.reader = s.skipGap.reader.behindMark := by
  change t.gapItems.foldl Reader.pass t.reader.skipMark = _
  rw [gapItems_of_mark hmark, hmark.2, Reader.foldl_pass_behindMark, ← hmark.1]
  rfl

theorem gapDocs_of_mark (hoptions : t.options = s.options) :
    t.gapDocs = Doc.captured s.options.everyComment s.reader.behindMark s.gapItems := by
  rw [gapDocs, hoptions, hmark.2, gapItems_of_mark hmark]

end Gaps

/-- In front of a text, a mark changes the last comment of the first gap exactly if it splits the
    comments there. -/
theorem FacesMark.getLast?_gapDocs_eq_iff (h : FacesMark s t) (hoptions : t.options = s.options) :
    t.gapDocs.getLast? = s.gapDocs.getLast? ↔
      ¬ (s.options.everyComment ∧ Doc.SplitsRun (Trivia.gap s.reader.ahead).1) := by
  rw [gapDocs_of_mark h.skipMark hoptions, gapDocs, gapItems, h.skipMark.1]
  obtain ⟨cs, -, hs, -, -⟩ := h
  rw [hs]
  cases hevery : s.options.everyComment with
  | false => exact iff_of_true (congrArg _ (Doc.marked_behindMark _ _)) (by simp)
  | true =>
    have hlast := Doc.getLast?_every_behindMark_eq_iff (r := .ofChars cs) (Trivia.isGap_gap cs)
      (Trivia.flatMap_chars_gap cs).symm rfl
    exact hlast.trans (by simp [Reader.ofChars])

theorem PassedMark.gapDocs (h : PassedMark s t) (hoptions : t.options = s.options) :
    t.gapDocs = s.gapDocs := by
  rw [gapDocs_of_mark h.skipMark hoptions, Session.gapDocs, h.skipMark.1]
  rcases h.2 with hnil | hunderway
  · have hitems : s.gapItems = [] := by rw [gapItems, h.skipMark.1, hnil, Trivia.gap_nil]
    rw [hitems, Doc.captured_nil, Doc.captured_nil]
  · exact Doc.captured_behindMark _ hunderway _

namespace BehindMark

/-- A gap that does not end in an open comment brings the same comment into the slot. -/
theorem slot_skipGap (h : BehindMark s t)
    (hopens : ¬ Trivia.OpensBlock s.skipGap.reader.ahead) :
    t.skipGap.slot = s.skipGap.slot := by
  have hlast : t.gapDocs.getLast? = s.gapDocs.getLast? := by
    rcases h.reader with ⟨hfaces, hsplits⟩ | hpassed
    · rw [ahead_skipGap, hfaces.skipMark.1] at hopens
      exact (hfaces.getLast?_gapDocs_eq_iff h.options).mpr fun hsplit =>
        hsplits ⟨hsplit.1, hsplit.2, hopens⟩
    · rw [hpassed.gapDocs h.options]
  change t.gapDocs.getLast?.or t.slot = s.gapDocs.getLast?.or s.slot
  rw [hlast, h.slot]

/-! ## Scanning -/

theorem abort {α : Type} (h : BehindMark s t) (fault : Fault) (event : Event) :
    Alike BehindMark (s.abort fault event : Except Fault α × Session) (t.abort fault event) :=
  .intro _ ⟨h.options, rfl, rfl, rfl, .inr ⟨h.toEnd, .inl (Reader.ahead_toEnd _)⟩⟩

theorem passOpenComment (h : BehindMark s t) :
    t.passOpenComment.reader = s.passOpenComment.reader.behindMark := by
  change t.skipGap.reader.advance t.skipGap.reader.ahead.length = _
  rw [reader_skipGap_of_mark h.skipMark, Reader.ahead_behindMark, Reader.advance_behindMark]
  rfl

theorem scanLexeme (h : BehindMark s t) : Alike BehindMark s.scanLexeme t.scanLexeme := by
  have hreader := reader_skipGap_of_mark h.skipMark
  by_cases hopens : Trivia.OpensBlock s.skipGap.reader.ahead
  · obtain ⟨body, hahead⟩ := hopens
    have hahead' : t.skipGap.reader.ahead = '/' :: '*' :: body := by
      rw [hreader, Reader.ahead_behindMark, ← hahead]
      rfl
    have hline : t.passOpenComment.line = s.passOpenComment.line := by
      rw [Session.line, h.passOpenComment]
      rfl
    rw [scanLexeme_of_openComment hahead.symm, scanLexeme_of_openComment hahead', hline]
    have hend : t.passOpenComment.reader.toEnd = s.passOpenComment.reader.toEnd.behindMark := by
      rw [h.passOpenComment, Reader.toEnd_behindMark]
    exact .intro _ ⟨h.options, rfl, rfl, rfl, .inr ⟨hend, .inl (Reader.ahead_toEnd _)⟩⟩
  · have hslot := h.slot_skipGap hopens
    cases hahead : s.skipGap.reader.ahead with
    | nil =>
      have hahead' : t.skipGap.reader.ahead = [] := by rw [hreader, Reader.ahead_behindMark, hahead]
      rw [scanLexeme_of_end hahead, scanLexeme_of_end hahead']
      exact .intro _ ⟨h.options, h.queue, h.opened, hslot, .inr ⟨hreader, .inl hahead⟩⟩
    | cons c cs =>
      have hahead' : t.skipGap.reader.ahead = c :: cs := by
        rw [hreader, Reader.ahead_behindMark, hahead]
      have hslash := Trivia.head?_ne_star_of_not_opensBlock (hahead ▸ hopens)
      rw [scanLexeme_of_cons hahead hslash, scanLexeme_of_cons hahead' hslash]
      refine .intro _ ⟨h.options, h.queue, rfl, hslot, .inr ⟨?_, .inr ?_⟩⟩
      · rw [reader_takeLexeme, reader_takeLexeme, hreader, Reader.advance_behindMark]
      · obtain ⟨d, ds, hchars⟩ := List.exists_cons_of_ne_nil (Lexeme.chars_first_ne_nil c cs)
        have hc : Text.isIndent c = false := by
          have hblank := not_isBlank_of_ahead_skipGap hahead
          exact Bool.eq_false_iff.mpr fun hindent => by
            simp [Text.isBlank_of_isIndent hindent] at hblank
        refine Reader.underway_advance ?_ hc
        rw [hahead, hchars]
        simp

theorem scanBody (h : BehindMark s t) {q : Quote} (hopened : s.opened = some q) :
    Alike BehindMark (s.scanBody q) (t.scanBody q) := by
  obtain ⟨hreader, -⟩ : PassedMark s t := by
    refine h.reader.resolve_left ?_
    rintro ⟨⟨cs, -, -, -, hnone⟩, -⟩
    cases hopened.symm.trans hnone
  cases hsplit : Literal.split? q s.reader.ahead with
  | none =>
    rw [scanBody_of_none hsplit, scanBody_of_none (by rw [hreader]; exact hsplit), h.line]
    exact h.abort _ _
  | some parts =>
    obtain ⟨body, rest⟩ := parts
    rw [scanBody_of_some hsplit, scanBody_of_some (by rw [hreader]; exact hsplit)]
    have hqueue : (t.takeBody q body).queue = (s.takeBody q body).queue := by simp [h.queue]
    have htaken : (t.takeBody q body).reader = (s.takeBody q body).reader.behindMark := by
      unfold takeBody
      rw [h.options, hreader]
      dsimp only
      split
      · exact Reader.advance_behindMark _ _
      · exact Reader.leap_behindMark _ _
    have hunderway : (s.takeBody q body).reader.Underway := by
      have hq : Text.isIndent q.char = false := by cases q <;> decide
      refine List.all_eq_false.mpr ⟨q.char, ?_, by simp [hq]⟩
      rw [behind_takeBody, Literal.eq_of_split? hsplit]
      simp [List.take_append]
    exact .intro _ ⟨h.options, hqueue, rfl, h.slot, .inr ⟨htaken, .inr hunderway⟩⟩

end BehindMark

theorem lockstep_behindMark : Lockstep.Docs BehindMark where
  queue h := h.queue
  line h := h.line
  setQueue tokens h := ⟨h.options, rfl, h.opened, h.slot, h.reader⟩
  slot h := h.slot
  dropSlot event h := ⟨h.options, h.queue, h.opened, rfl, h.reader⟩
  abort fault event h := h.abort fault event
  scan {s t} h hqueue := by
    unfold scan
    rw [h.opened]
    cases hopened : s.opened with
    | none => exact h.scanLexeme
    | some q => exact h.scanBody hopened

/-! ## Answers -/

variable {options : Options} {text : String}

theorem facesMark_ofString (h : text.toList.head? ≠ some '\uFEFF') :
    FacesMark (ofString options text) (ofString options ("\uFEFF" ++ text)) := by
  refine ⟨text.toList, h, rfl, ?_, rfl⟩
  rw [ofString, String.toList_append]
  rfl

/-- A mark that splits the first comments shows in the slot behind the first gap. -/
theorem slot_skipGap_ne_of_markSplits (h : text.toList.head? ≠ some '\uFEFF')
    (hevery : options.everyComment) (hsplits : MarkSplits text.toList) :
    (ofString options ("\uFEFF" ++ text)).skipGap.slot ≠ (ofString options text).skipGap.slot := by
  intro hslot
  change (gapDocs _).getLast?.or none = (gapDocs _).getLast?.or none at hslot
  rw [Option.or_none, Option.or_none] at hslot
  exact ((facesMark_ofString h).getLast?_gapDocs_eq_iff rfl).mp hslot ⟨hevery, hsplits.1⟩

/-- A byte order mark in front of a text changes an answer exactly if every comment is documentation
    and the mark splits the comments that the text starts with. -/
theorem replies_mark_iff (options : Options) {text : String}
    (h : text.toList.head? ≠ some '\uFEFF') :
    (∀ queries, (ofString options ("\uFEFF" ++ text)).replies queries =
        (ofString options text).replies queries) ↔
      ¬ (options.everyComment ∧ MarkSplits text.toList) := by
  have hfaces : FacesMark (ofString options text) (ofString options ("\uFEFF" ++ text)) :=
    facesMark_ofString h
  constructor
  · rintro hsame ⟨hevery, hsplits⟩
    have hopens : ¬ Trivia.OpensBlock (ofString options text).skipGap.reader.ahead := by
      rw [ahead_skipGap, hfaces.skipMark.1]
      exact hsplits.2
    have hopens' :
        ¬ Trivia.OpensBlock (ofString options ("\uFEFF" ++ text)).skipGap.reader.ahead := by
      rw [reader_skipGap_of_mark hfaces.skipMark, Reader.ahead_behindMark]
      exact hopens
    obtain ⟨token, s, hpeek, hslot⟩ := (peek_of_idle ⟨rfl, rfl⟩).2 hopens
    obtain ⟨token', t, hpeek', hslot'⟩ := (peek_of_idle ⟨rfl, rfl⟩).2 hopens'
    have hpending : t.slot = s.slot := by
      have hreplies := hsame [.call .peek, .pending]
      simp only [replies, ask, perform, hpeek, hpeek', List.cons.injEq,
        Answer.pending.injEq] at hreplies
      exact hreplies.2.1
    rw [hslot, hslot'] at hpending
    exact slot_skipGap_ne_of_markSplits h hevery hsplits hpending
  · intro hsplits queries
    have hbehind : BehindMark (ofString options text) (ofString options ("\uFEFF" ++ text)) :=
      ⟨rfl, rfl, rfl, rfl, .inl ⟨hfaces, hsplits⟩⟩
    exact (lockstep_behindMark.replies_eq hbehind queries).symm

/-- Behind a mark, a comment on the first line is lost to the one on the second. -/
theorem mark_splits_two_lines :
    "// a\n// b\nx".toList.head? ≠ some '\uFEFF' ∧
      ¬ ∀ queries, (ofString ⟨true, false⟩ ("\uFEFF" ++ "// a\n// b\nx")).replies queries =
        (ofString ⟨true, false⟩ "// a\n// b\nx").replies queries := by
  refine ⟨by decide +kernel, fun hsame => ?_⟩
  have hsplits : MarkSplits "// a\n// b\nx".toList := by decide +kernel
  exact (replies_mark_iff ⟨true, false⟩ (by decide +kernel)).mp hsame ⟨rfl, hsplits⟩

end SchemaLex.Session
