-- SUMMARY: The comment above a token is handed out with it, whatever was looked at before.
import SchemaLex.Proofs.Doc.Marked
import SchemaLex.Proofs.Session.Lines
import SchemaLex.Proofs.Session.Reached

/-!
# Leading Comments

A documentation comment that ends on the line above a lexeme is the leading comment of that lexeme:
`leading_of_facesDoc`. What waited in the slot before does not matter, and neither do looks ahead
and lookups beside an earlier token. A look may scan the lexeme and with it the comment, so the
session is in one of two states until the lexeme is taken: as it was, or `Scanned`.
-/

namespace SchemaLex

namespace Trivia

/-- The item is documentation. -/
def IsDoc (everyComment : Bool) (t : Trivia) : Prop :=
  if everyComment then t.IsComment else t.IsMarked

/-- What an item has behind the body of its line comment, or behind its closing mark. -/
def behindBody : Trivia → List Char
  | line _ true => ['\n']
  | _ => []

theorem IsGap.newline_not_mem {gap : List Trivia} {rest body : List Char} {ended : Bool}
    (h : IsGap gap rest) (hmem : line body ended ∈ gap) : '\n' ∉ body := by
  induction gap with
  | nil => cases hmem
  | cons t ts ih =>
    obtain ⟨ht, hts⟩ := h
    rcases List.mem_cons.mp hmem with rfl | hlater
    · cases ended with
      | true => exact ht
      | false => exact ht.1
    · exact ih hts hlater

end Trivia

namespace Part

variable {options : Options} {back ps qs later later' : List Part} {t : Trivia} {ts : List Trivia}
  {doc : Doc} {l l' : Lexeme}

/-- A gap with a comment in it that ends with the item `t`. -/
def docGap (front : List Part) (t : Trivia) (after : List Trivia) : List Part :=
  front ++ trivia t :: after.map trivia

theorem docEnding?_eq_none (h : ¬ t.IsDoc options.everyComment) :
    docEnding? options back t = none := by
  cases hevery : options.everyComment with
  | true =>
    rw [Trivia.IsDoc, hevery, if_pos rfl] at h
    cases t with
    | blank c => rfl
    | line body ended => exact absurd trivial h
    | block body => exact absurd trivial h
  | false =>
    rw [Trivia.IsDoc, hevery, if_neg Bool.false_ne_true] at h
    cases t with
    | blank c => rfl
    | line body ended =>
      have hmarker : body.head? ≠ some '/' := h
      simp [docEnding?, docBody?, hevery, Doc.Kind.marker, hmarker]
    | block body =>
      have hmarker : body.head? ≠ some '*' := h
      simp [docEnding?, docBody?, hevery, Doc.Kind.marker, hmarker]

/-- Only documentation changes which comment is the latest. -/
theorem latest_behindGap (h : ∀ t ∈ ts, ¬ t.IsDoc options.everyComment) :
    latest options (behindGap back ts) = latest options back := by
  induction ts generalizing back with
  | nil => rfl
  | cons t ts ih =>
    obtain ⟨ht, hts⟩ := List.forall_mem_cons.mp h
    rw [behindGap_cons, ih hts, latest, docEnding?_eq_none ht]
    rfl

/-- Behind the item that ends a comment, the line is that of the comment or the next one. -/
theorem lineBehind_of_docEnding? (h : docEnding? options back t = some doc)
    (hline : ∀ body ended, t = .line body ended → '\n' ∉ body) :
    lineBehind options.countLiteralLines (trivia t :: back).reverse =
      doc.line + (t.behindBody.count '\n' + t.impliedLineEnds) := by
  cases t with
  | blank c => cases h
  | line body ended =>
    have hbody := List.count_eq_zero.mpr (hline body ended rfl)
    obtain ⟨inner, -, rfl⟩ := Option.map_eq_some_iff.mp h
    rw [List.reverse_cons, lineBehind_append]
    cases ended <;> simp [lineEnds, Trivia.chars, Trivia.behindBody, Trivia.impliedLineEnds, hbody]
  | block body =>
    obtain ⟨inner, -, rfl⟩ := Option.map_eq_some_iff.mp h
    rfl

theorem sum_lineEnds_trivia (inLiterals : Bool) (ts : List Trivia) :
    ((ts.map trivia).map (lineEnds inLiterals)).sum =
      (ts.flatMap Trivia.chars).count '\n' + (ts.map Trivia.impliedLineEnds).sum := by
  have hsame : (ts.map trivia).map (lineEnds inLiterals) = (ts.map trivia).map (lineEnds true) := by
    rw [List.map_map, List.map_map]
    rfl
  rw [hsame, sum_lineEnds_true, flatMap_chars_trivia, sum_impliedLineEnds_trivia]

/-- No token comes from a gap. -/
theorem tokens_of_mem_gap (marked : Bool) (gap : List Trivia) :
    ∀ p ∈ leading marked ++ gap.map trivia, p.tokens = [] := by
  refine List.forall_mem_append.mpr ⟨?_, ?_⟩
  · cases marked <;> simp [leading, tokens]
  · intro p hp
    obtain ⟨t, -, rfl⟩ := List.mem_map.mp hp
    rfl

/-- Two readings of some parts find the same first lexeme. -/
theorem eq_of_append_lexeme (hps : ∀ p ∈ ps, p.tokens = []) (hqs : ∀ p ∈ qs, p.tokens = [])
    (h : ps ++ lexeme l :: later = qs ++ lexeme l' :: later') : ps = qs ∧ l = l' := by
  induction ps generalizing qs with
  | nil =>
    cases qs with
    | nil => exact ⟨rfl, Part.lexeme.inj (List.cons.inj h).1⟩
    | cons q qs =>
      have hq := hqs q List.mem_cons_self
      rw [← (List.cons.inj h).1] at hq
      cases hq
  | cons p ps ih =>
    obtain ⟨hp, hps⟩ := List.forall_mem_cons.mp hps
    cases qs with
    | nil =>
      rw [(List.cons.inj h).1] at hp
      cases hp
    | cons q qs =>
      obtain ⟨rfl, hlater⟩ := List.cons.inj h
      obtain ⟨rfl, rfl⟩ := ih hps (List.forall_mem_cons.mp hqs).2 hlater
      exact ⟨rfl, rfl⟩

end Part

/-- The call leaves the comment above a lexeme for a later lookup: it looks ahead, or asks for a
    comment beside a token on another line. -/
def Call.LeavesDoc (l : Lexeme) (doc : Doc) : Call → Prop
  | peek => True
  | accept wanted => wanted ≠ l.token
  | trailing line => doc.kind = .line → line ≠ doc.line
  | _ => False

namespace Session

/-- The session stands in front of a gap with a lexeme behind it. The last documentation comment of
    the gap has text and ends with the item `t`, and one newline lies between its end and the
    lexeme. -/
structure FacesDoc (s : Session) (options : Options) (text : String) (layout : Layout)
    (front : List Part) (t : Trivia) (after : List Trivia) (l : Lexeme) (doc : Doc) : Prop where
  idle : s.Idle
  /-- No fault has come. -/
  unread : s.reader.ahead ≠ []
  parts : ∃ later, Text.parts text.toList layout =
    partsBehind layout s ++ (Part.docGap front t after ++ .lexeme l :: later)
  gap : ∀ p ∈ front, p.tokens = []
  ends : Part.docEnding? options (partsBehind layout s ++ front).reverse t = some doc
  /-- No documentation stands between the comment and the lexeme. -/
  plain : ∀ u ∈ after, ¬ u.IsDoc options.everyComment
  hasText : doc.text ≠ ""
  newline : (t.behindBody ++ after.flatMap Trivia.chars).count '\n' = 1

/-- The lexeme below the comment waits to be taken, and the comment waits in the slot. -/
structure Scanned (s : Session) (l : Lexeme) (doc : Doc) : Prop where
  queue : s.queue = [l.token]
  slot : s.slot = some doc
  line : s.line = doc.line + 1

variable {s s' : Session} {options : Options} {text : String} {layout : Layout}
  {read front : List Part} {place : Place} {t : Trivia} {after : List Trivia} {l : Lexeme}
  {doc : Doc} {call : Call} {looks : List Call}

/-! ## Scanning the Lexeme -/

/-- The stretch ahead is the gap with the comment and the lexeme. -/
theorem FacesDoc.exists_step (h : s.FacesDoc options text layout front t after l doc)
    (hread : s.HasRead options text layout read place) :
    ∃ stretch place', place.Step stretch place' ∧ stretch.last = some (.lexeme l) ∧
      '\n' ∉ l.chars ∧
      Part.leading stretch.marked ++ stretch.gap.map Part.trivia = Part.docGap front t after := by
  obtain ⟨later, hparts⟩ := h.parts
  rw [hread.partsBehind_eq, hread.parts, List.append_cancel_left_eq] at hparts
  have htoken : l.token ∈ place.parts.flatMap Part.tokens := by simp [hparts, Part.tokens]
  have hopened : place.opened = none := hread.standsAt.opened.symm.trans h.idle.opened
  rcases place.exists_step_or with
    ⟨stretch, place', hstep⟩ | ⟨marked, gap, body, rfl⟩ | ⟨gap, q, body, rfl⟩
  · cases hhead : stretch.tokens.head? with
    | none =>
      have hnone := List.head?_eq_none_iff.mp hhead
      rw [hstep.parts_eq, hstep.parts_eq_nil hnone, List.append_nil,
        stretch.flatMap_tokens_parts, hnone] at htoken
      cases htoken
    | some token =>
      obtain ⟨l', hlast, -, hnewline, -⟩ :=
        hstep.exists_lexeme hread.standsAt.fits hopened hhead
      have hquiet : ∀ p ∈ Part.docGap front t after, p.tokens = [] :=
        List.forall_mem_append.mpr ⟨h.gap, Part.tokens_of_mem_gap false (t :: after)⟩
      rw [hstep.parts_eq, Stretch.parts, hlast, List.append_assoc] at hparts
      obtain ⟨heq, rfl⟩ :=
        Part.eq_of_append_lexeme (Part.tokens_of_mem_gap _ _) hquiet hparts
      exact ⟨stretch, place', hstep, hlast, hnewline, heq⟩
  · have hnone := List.flatMap_eq_nil_iff.mpr (Part.tokens_of_mem_gap marked gap)
    have hparts' : Place.parts (.between marked (.last gap (.openComment body))) =
        Part.leading marked ++ (gap.map Part.trivia ++ []) := rfl
    rw [hparts', List.append_nil, hnone] at htoken
    cases htoken
  · cases hopened

/-- Behind the lexeme the comment is the latest. -/
theorem FacesDoc.latest (h : s.FacesDoc options text layout front t after l doc)
    (hread : s.HasRead options text layout read place) :
    Part.latest options (read ++ (Part.docGap front t after ++ [Part.lexeme l])).reverse =
      some (doc, .trivia t :: (read ++ front).reverse) := by
  have hends := h.ends
  rw [hread.partsBehind_eq] at hends
  have hreverse : (read ++ (Part.docGap front t after ++ [Part.lexeme l])).reverse =
      .lexeme l :: Part.behindGap (.trivia t :: (read ++ front).reverse) after := by
    simp [Part.docGap, Part.behindGap]
  rw [hreverse]
  change Part.latest options (Part.behindGap _ after) = _
  rw [Part.latest_behindGap h.plain, Part.latest, hends]
  rfl

/-- The lexeme is on the line below the comment. -/
theorem FacesDoc.lineBehind (h : s.FacesDoc options text layout front t after l doc)
    (hread : s.HasRead options text layout read place) {gap : List Trivia} {rest : List Char}
    {marked : Bool} (hgap : Trivia.IsGap gap rest) (hrest : rest ≠ [])
    (hparts : Part.leading marked ++ gap.map Part.trivia = Part.docGap front t after)
    (hnewline : '\n' ∉ l.chars) :
    Part.lineBehind options.countLiteralLines
      (read ++ (Part.docGap front t after ++ [.lexeme l])) = doc.line + 1 := by
  have hends := h.ends
  rw [hread.partsBehind_eq] at hends
  have hmem : t ∈ gap := by
    have hmem : Part.trivia t ∈ Part.leading marked ++ gap.map Part.trivia := by
      simp [hparts, Part.docGap]
    cases marked <;> simpa [Part.leading] using hmem
  have hline := Part.lineBehind_of_docEnding? hends fun body ended heq =>
    hgap.newline_not_mem (heq ▸ hmem)
  have himplied : t.impliedLineEnds + (after.map Trivia.impliedLineEnds).sum = 0 := by
    have hsum := congrArg (fun ps => (ps.map Part.impliedLineEnds).sum) hparts
    simp only [Part.docGap, List.map_append, List.sum_append, Part.sum_impliedLineEnds_leading,
      Part.sum_impliedLineEnds_trivia, hgap.sum_impliedLineEnds,
      hgap.not_endsInLineComment hrest, List.map_cons, List.sum_cons, Part.impliedLineEnds] at hsum
    rw [if_neg Bool.false_ne_true] at hsum
    omega
  have hcount := h.newline
  rw [List.count_append] at hcount
  have hlexeme : l.chars.count '\n' = 0 := List.count_eq_zero.mpr hnewline
  have happend : read ++ (Part.docGap front t after ++ [.lexeme l]) =
      (.trivia t :: (read ++ front).reverse).reverse ++ (after.map .trivia ++ [.lexeme l]) := by
    simp [Part.docGap]
  rw [happend, Part.lineBehind_append, hline, List.map_append, List.sum_append,
    Part.sum_lineEnds_trivia]
  simp only [List.map_cons, List.map_nil, List.sum_cons, List.sum_nil, Part.lineEnds, hlexeme]
  omega

/-- A scan takes the lexeme and leaves the comment in the slot. -/
theorem FacesDoc.scan (h : s.FacesDoc options text layout front t after l doc)
    (hfollows : s.Follows options text layout read place) :
    ∃ s', s.scan = (.ok (some l.token), s') ∧ s'.queue = [] ∧ s'.slot = some doc ∧
      s'.line = doc.line + 1 := by
  obtain ⟨hread, returned, hholds⟩ := hfollows
  obtain ⟨stretch, place', hstep, hlast, hnewline, hgapParts⟩ := h.exists_step hread
  obtain ⟨s', hscan, hcross, hstands⟩ := hread.standsAt.scan_of_step hstep
  have hread' := hread.of_passes (hcross.passes hstep hstands)
  have htokens : stretch.tokens = [l.token] := by simp [Stretch.tokens, hlast, Part.tokens]
  have hparts : stretch.parts = Part.docGap front t after ++ [.lexeme l] := by
    rw [Stretch.parts, hlast, hgapParts]
    rfl
  have hlatest := h.latest hread
  rw [← hparts] at hlatest
  have hdocs : (Doc.captured options.everyComment s.reader.skipMark stretch.gap).getLast? =
      some doc := by
    cases hholds.latestIn hread hstep with
    | older hnone hfound =>
      -- The comment would lie behind the session.
      have hle := (Part.suffix_of_latest (hfound.symm.trans hlatest)).length_le
      simp only [List.length_cons, List.length_reverse, List.length_append] at hle
      omega
    | newer hdocs hfound =>
      obtain ⟨rfl, -⟩ := Prod.mk.inj (Option.some.inj (hfound.symm.trans hlatest))
      exact hdocs
  have hchars : l.chars ≠ [] := by
    have hall : ∀ p ∈ Text.parts text.toList layout, p.chars ≠ [] :=
      Text.chars_ne_nil_of_mem_parts hread.divides.fits
    exact hall (.lexeme l) (by simp [hread'.parts, hparts])
  have hline : s'.line = doc.line + 1 := by
    rw [hread'.line, hread'.options, hparts]
    refine h.lineBehind hread (hstep.isGap hread.standsAt.fits) ?_ hgapParts hnewline
    simp [hlast, Part.chars, hchars]
  refine ⟨s', by rw [hscan, htokens]; rfl, ?_, ?_, hline⟩
  · rw [hcross.queue, h.idle.queue, htokens]
    rfl
  · rw [hcross.slot, hread.options, hdocs]
    rfl

/-! ## Looks -/

theorem Scanned.takeDoc {rule : Doc → Bool} (h : s.Scanned l doc) (hrule : rule doc = false) :
    s.takeDoc rule = (none, s) := by
  simp [takeDoc_eq, h.slot, hrule]

theorem not_trails {line : Nat} (h : doc.kind = .line → line ≠ doc.line) :
    trails line doc = false := by
  unfold trails
  cases hkind : doc.kind with
  | line => simp [(h hkind).symm]
  | block => simp

theorem FacesDoc.takeDoc (h : s.FacesDoc options text layout front t after l doc)
    (rule : Doc → Bool) :
    (s.takeDoc rule).2.FacesDoc options text layout front t after l doc := by
  have hreader := s.reader_takeDoc rule
  have hbehind : partsBehind layout (s.takeDoc rule).2 = partsBehind layout s := by
    rw [partsBehind, hreader, partsBehind]
  exact
    { h with
      idle := ⟨(s.queue_takeDoc rule).trans h.idle.queue,
        (s.opened_takeDoc rule).trans h.idle.opened⟩
      unread := hreader ▸ h.unread
      parts := hbehind ▸ h.parts
      ends := hbehind ▸ h.ends }

/-- The lexeme is yet to be scanned, or it waits to be taken. -/
inductive Awaits (s : Session) (options : Options) (text : String) (layout : Layout)
    (front : List Part) (t : Trivia) (after : List Trivia) (l : Lexeme) (doc : Doc) : Prop where
  | ahead {read : List Part} {place : Place} (hfollows : s.Follows options text layout read place)
    (hfaces : s.FacesDoc options text layout front t after l doc)
  | scanned (hscanned : s.Scanned l doc)

theorem Awaits.peek (h : s.Awaits options text layout front t after l doc) :
    ∃ s', s.peek = (.ok (some l.token), s') ∧ s'.Scanned l doc := by
  cases h with
  | ahead hfollows hfaces =>
    obtain ⟨s', hscan, hqueue, hslot, hline⟩ := hfaces.scan hfollows
    refine ⟨_, peek_of_token hfaces.idle.queue hscan, ?_, hslot, hline⟩
    rw [hqueue]
  | scanned hscanned => exact ⟨s, by simp [Session.peek, hscanned.queue], hscanned⟩

theorem Awaits.takeTrailing {line : Nat} (h : s.Awaits options text layout front t after l doc)
    (hline : doc.kind = .line → line ≠ doc.line) :
    (s.takeDoc (trails line)).2.Awaits options text layout front t after l doc := by
  cases h with
  | ahead hfollows hfaces => exact .ahead (hfollows.takeDoc _) (hfaces.takeDoc _)
  | scanned hscanned =>
    rw [hscanned.takeDoc (not_trails hline)]
    exact .scanned hscanned

/-- A look may scan the lexeme and leaves it, with the comment, to be taken. -/
theorem Awaits.look (h : s.Awaits options text layout front t after l doc)
    (hlook : call.LeavesDoc l doc) :
    (s.perform call).2.Awaits options text layout front t after l doc := by
  obtain ⟨s', hpeek, hscanned⟩ := h.peek
  cases call with
  | peek =>
    rw [perform, hpeek]
    exact .scanned hscanned
  | accept wanted =>
    have hne : some l.token ≠ some wanted := fun heq => hlook (Option.some.inj heq).symm
    rw [perform, accept, hpeek]
    dsimp only
    rw [if_neg hne]
    exact .scanned hscanned
  | trailing line =>
    by_cases hslot : s.slot.any Doc.hasText
    · rw [perform, Session.takeTrailing, if_pos hslot]
      exact h.takeTrailing hlook
    · rw [perform, Session.takeTrailing, if_neg hslot, hpeek]
      dsimp only
      rw [hscanned.takeDoc (not_trails hlook)]
      exact .scanned hscanned
  | _ => cases hlook

theorem Awaits.run (h : s.Awaits options text layout front t after l doc)
    (hlooks : ∀ look ∈ looks, look.LeavesDoc l doc) :
    (s.run looks).2.Awaits options text layout front t after l doc := by
  induction looks generalizing s with
  | nil => exact h
  | cons look looks ih =>
    obtain ⟨hlook, hlater⟩ := List.forall_mem_cons.mp hlooks
    exact ih (h.look hlook) hlater

/-! ## Taking the Lexeme -/

theorem Awaits.next (h : s.Awaits options text layout front t after l doc) :
    ∃ s', s.next = (.ok (some l.token), s') ∧ s'.slot = some doc ∧ s'.line = doc.line + 1 := by
  cases h with
  | ahead hfollows hfaces =>
    obtain ⟨s', hscan, -, hslot, hline⟩ := hfaces.scan hfollows
    refine ⟨s', ?_, hslot, hline⟩
    rw [Session.next, hfaces.idle.queue]
    exact hscan
  | scanned hscanned =>
    refine ⟨{ s with queue := [] }, ?_, hscanned.slot, hscanned.line⟩
    rw [Session.next, hscanned.queue]

/-- The comment that ends on the line above leaves the slot with the first lookup. -/
theorem takeLeading_of_slot (hslot : s.slot = some doc) (hline : s.line = doc.line + 1)
    (hasText : doc.text ≠ "") :
    s.takeLeading.1 = some doc.text ∧ s.takeLeading.2.takeLeading.1 = none := by
  have hleads : (doc.hasText && leads s.line doc) = true := by
    simp [Doc.hasText, leads, hasText, hline]
  rw [takeLeading, takeDoc_eq, hslot]
  dsimp only
  rw [if_pos hleads]
  exact ⟨rfl, rfl⟩

/-- The comment above a token is brought by the first lookup behind the token and by no second one,
    whatever the slot held before and whatever calls looked ahead. -/
theorem leading_of_facesDoc {calls : List Call}
    (hlayout : layout.Divides (Text.dropMark text.toList))
    (hfaces :
      ((ofString options text).run calls).2.FacesDoc options text layout front t after l doc)
    (hlooks : ∀ look ∈ looks, look.LeavesDoc l doc) :
    ((ofString options text).run (calls ++ looks ++ [.next, .leading, .leading])).1 =
      ((ofString options text).run (calls ++ looks)).1 ++
        [.ok (.token (some l.token)), .ok (.doc (some doc.text)), .ok (.doc none)] := by
  have hawaits : ((ofString options text).run (calls ++ looks)).2.Awaits options text layout front t
      after l doc := by
    rw [run_append]
    rcases (follows_ofString options hlayout).run calls with ⟨read, place, hfollows⟩ | hsilent
    · exact (Awaits.ahead hfollows hfaces).run hlooks
    · exact absurd hsilent.ahead hfaces.unread
  obtain ⟨s', hnext, hslot, hline⟩ := hawaits.next
  obtain ⟨hfirst, hsecond⟩ := takeLeading_of_slot hslot hline hfaces.hasText
  rw [run_append, List.append_cancel_left_eq]
  simp only [Session.run, perform, hnext, hfirst, hsecond]
  rfl

/-- A comment from before waits in the slot, and a plain comment stands in front of the token. -/
theorem leading_of_facesDoc_stale_slot :
    ((ofString {} "/// s\na\n/** d *///p\nb").run [.next, .trailing 1, .peek, .accept "x",
      .trailing 3, .next, .leading, .leading]).1 =
      [.ok (.token (some "a")), .ok (.doc (some "s")), .ok (.token (some "b")),
        .ok (.matched false), .ok (.doc none), .ok (.token (some "b")), .ok (.doc (some "d")),
        .ok (.doc none)] := by
  have hword (c : Char) (hc : Lexeme.isDelimiter c = false) (hslash : c ≠ '/') :
      Piece.IsWord [c] := ⟨by simp, by simpa using hslash, by simpa using hc⟩
  have hlayout : (Layout.more [.line ['/', ' ', 's'] true] (.word ['a'])
      (.more [.blank '\n', .block ['*', ' ', 'd', ' '], .line ['p'] true] (.word ['b'])
        (.last [] .complete))).Divides (Text.dropMark "/// s\na\n/** d *///p\nb".toList) := by
    refine ⟨rfl, ⟨?_, trivial⟩, ⟨hword 'a' (by decide) (by decide), ?_⟩, ⟨?_, ?_, ?_, trivial⟩,
      ⟨hword 'b' (by decide) (by decide), nofun⟩, trivial, trivial⟩
    · simp [Trivia.Fits]
    · intro c hc
      obtain rfl := Option.some.inj hc
      decide
    · rfl
    · change ¬ ['*', '/'] <:+: _
      decide +kernel
    · simp [Trivia.Fits]
  have hlooks : ∀ look ∈ [Call.trailing 1, .peek, .accept "x", .trailing 3],
      look.LeavesDoc (.word ['b']) ⟨.block, "d", 3⟩ := by
    have htoken : "x" ≠ (Lexeme.word ['b']).token := by decide +kernel
    simp [Call.LeavesDoc, htoken]
  refine (@leading_of_facesDoc {} _ _ [.trivia (.blank '\n')] (.block ['*', ' ', 'd', ' '])
    [.line ['p'] true] (.word ['b']) ⟨.block, "d", 3⟩ _ [.next] hlayout ⟨⟨?queue, ?opened⟩, ?unread,
      ⟨[], ?parts⟩, ?gap, ?ends, ?plain, ?hasText, ?newline⟩ hlooks).trans ?_
  case plain => simp [Trivia.IsDoc, Trivia.IsMarked]
  all_goals decide +kernel

end Session

end SchemaLex
