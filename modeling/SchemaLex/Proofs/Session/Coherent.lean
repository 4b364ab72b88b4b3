-- SUMMARY: How the queue, the open literal, the slot and the place of a session hang together.
import SchemaLex.Proofs.Doc.Lines
import SchemaLex.Proofs.Session.Merge
import SchemaLex.Proofs.Session.Reached

/-!
# Coherent Sessions

The fields of a session are set by different steps, and still each tells something of the others: an
open literal of the character in front of the session, the comment in the slot of lines already
counted, and what waits in the queue of the part that was read last. `coherent_of_run` says so for
every session that calls can lead to, behind a fault as well. The queue and the open literal go
together because every scan leaves both to its last part (`Tidy`).
-/

namespace SchemaLex

/-- The event tells of the body of a literal, be it closed or not. -/
def Event.isLiteral : Event → Bool
  | body .. => true
  | openLiteral .. => true
  | _ => false

/-! ## The Slot -/

theorem Text.trim_trim (cs : List Char) : trim (trim cs) = trim cs := by
  have htrim := isTrim_trim cs
  rw [trim, htrim.front, htrim.back]

/-- The text of a comment is trim, and the comment ends on a line that was counted. The line of a
    `//` comment has ended behind it. -/
structure Doc.Counted (d : Doc) (line : Nat) : Prop where
  text : Text.trim d.text.toList = d.text.toList
  pos : 1 ≤ d.line
  block : d.kind = .block → d.line ≤ line
  line : d.kind = .line → d.line < line

theorem Doc.Counted.mono {d : Doc} {n m : Nat} (h : d.Counted n) (hle : n ≤ m) : d.Counted m :=
  { h with
    block := fun hkind => Nat.le_trans (h.block hkind) hle
    line := fun hkind => Nat.lt_of_lt_of_le (h.line hkind) hle }

namespace Part

variable {options : Options} {inLiterals : Bool} {back upTo ps qs : List Part} {t : Trivia}
  {doc : Doc}

theorem one_le_lineBehind (inLiterals : Bool) (ps : List Part) : 1 ≤ lineBehind inLiterals ps :=
  Nat.le_add_right 1 _

theorem lineBehind_mono (h : ps <+: qs) : lineBehind inLiterals ps ≤ lineBehind inLiterals qs := by
  obtain ⟨rest, rfl⟩ := h
  rw [lineBehind_append]
  exact Nat.le_add_right _ _

/-- A `//` comment ends its line. -/
theorem lt_lineBehind_line (inLiterals : Bool) (back : List Part) (body : List Char)
    (ended : Bool) :
    lineBehind inLiterals back.reverse <
      lineBehind inLiterals (trivia (.line body ended) :: back).reverse := by
  rw [List.reverse_cons, lineBehind_append]
  cases ended <;> simp [lineEnds, Trivia.chars, Trivia.impliedLineEnds]

theorem counted_of_docEnding? (h : docEnding? options back t = some doc) :
    doc.Counted (lineBehind options.countLiteralLines (trivia t :: back).reverse) := by
  cases t with
  | blank c => cases h
  | line body ended =>
    obtain ⟨inner, -, rfl⟩ := Option.map_eq_some_iff.mp h
    have hkind : Doc.Kind.line ≠ .block := by decide
    refine ⟨?_, one_le_lineBehind _ _, fun h => absurd h hkind,
      fun _ => lt_lineBehind_line _ back body ended⟩
    simp [Doc.normalize, Text.trim_trim]
  | block body =>
    obtain ⟨inner, -, rfl⟩ := Option.map_eq_some_iff.mp h
    have hkind : Doc.Kind.block ≠ .line := by decide
    refine ⟨?_, one_le_lineBehind _ _, fun _ => Nat.le_refl _, fun h => absurd h hkind⟩
    simp [Doc.normalize, Text.trim_trim]

/-- The latest comment ends with an item behind the place. -/
theorem exists_docEnding?_of_latest (h : latest options back = some (doc, upTo)) :
    ∃ t before, upTo = trivia t :: before ∧ docEnding? options before t = some doc := by
  induction back with
  | nil => cases h
  | cons p back ih =>
    cases p with
    | trivia t =>
      rw [latest] at h
      cases hdoc : docEnding? options back t with
      | some found =>
        rw [hdoc] at h
        obtain ⟨rfl, rfl⟩ := Prod.mk.inj (Option.some.inj h)
        exact ⟨t, back, rfl, hdoc⟩
      | none =>
        rw [hdoc] at h
        exact ih h
    | _ => exact ih h

theorem counted_of_latest (h : latest options back = some (doc, upTo)) :
    doc.Counted (lineBehind options.countLiteralLines back.reverse) := by
  obtain ⟨t, before, rfl, hdoc⟩ := exists_docEnding?_of_latest h
  exact (counted_of_docEnding? hdoc).mono
    (lineBehind_mono (List.reverse_prefix.mpr (suffix_of_latest h)))

end Part

/-! ## The Queue -/

/-- What waits behind the part that was read last, if the caller put nothing back. -/
inductive Waiting : Option Part → List String → Prop where
  | nothing {last} : Waiting last []
  /-- A token that was looked at. -/
  | peeked (l : Lexeme) : Waiting (some (.lexeme l)) [l.token]
  /-- The quote that closes a literal. -/
  | closing (body : List Char) (q : Quote) : Waiting (some (.body body q)) [q.token]
  /-- The value of a literal that was looked at, and the quote that closes it. -/
  | value (body : List Char) (q : Quote) :
    Waiting (some (.body body q)) [String.ofList (Literal.decode body), q.token]

/-- What waits are the last tokens of the part that was read last. -/
theorem waiting_of_suffix {last : Option Part} {queue : List String}
    (h : queue <:+ last.toList.flatMap Part.tokens) : Waiting last queue := by
  cases last with
  | none =>
    rw [List.suffix_nil.mp h]
    exact .nothing
  | some p =>
    rw [Option.toList_some, List.flatMap_singleton] at h
    cases p with
    | lexeme l =>
      rcases List.suffix_cons_iff.mp h with rfl | hnil
      · exact .peeked l
      · rw [List.suffix_nil.mp hnil]
        exact .nothing
    | body body q =>
      rcases List.suffix_cons_iff.mp h with rfl | hlast
      · exact .value body q
      · rcases List.suffix_cons_iff.mp hlast with rfl | hnil
        · exact .closing body q
        · rw [List.suffix_nil.mp hnil]
          exact .nothing
    | _ =>
      rw [List.suffix_nil.mp h]
      exact .nothing

/-- The last part of a stretch makes its tokens. -/
theorem Stretch.tokens_suffix (stretch : Stretch) (read : List Part) :
    stretch.tokens <:+ (read ++ stretch.parts).getLast?.toList.flatMap Part.tokens := by
  obtain ⟨marked, gap, last⟩ := stretch
  cases last with
  | none => exact List.nil_suffix
  | some p =>
    rw [parts, Option.toList_some, ← List.append_assoc, List.getLast?_concat]
    exact List.suffix_rfl

namespace Place

variable {place place' : Place} {stretch : Stretch} {q : Quote}

/-- A literal is open only behind the quote that opens it. -/
theorem Step.last_of_opened (h : place.Step stretch place') (hopened : place'.opened = some q) :
    stretch.last = some (.lexeme (.quote q)) := by
  cases h with
  | quote => rw [Option.some.inj hopened]
  | openQuote => rw [Option.some.inj hopened]
  | _ => cases hopened

end Place

theorem Call.allAdded_cons (call : Call) (calls : List Call) :
    allAdded (call :: calls) = call.added.toList ++ allAdded calls := rfl

namespace Session

variable {s s' looked : Session} {options : Options} {text : String} {layout : Layout}
  {read : List Part} {place : Place} {call : Call} {calls : List Call} {reply : Reply}
  {added new : List String}

/-- The part that was read last tells which literal is open and, if nothing was put back, what
    waits. -/
structure Tidy (s : Session) (read : List Part) (added : List String) : Prop where
  opened {q : Quote} : s.opened = some q → read.getLast? = some (.lexeme (.quote q))
  queue : added = [] → s.queue <:+ read.getLast?.toList.flatMap Part.tokens

theorem tidy_ofString (options : Options) (text : String) : (ofString options text).Tidy [] [] where
  opened hopened := nomatch hopened
  queue _ := List.suffix_rfl

/-- Looking brings the tokens of the part that it reads last. -/
theorem Tidy.of_looks (h : s.Tidy read added) (hread : s.HasRead options text layout read place)
    (hlooks : s.Looks new looked) :
    ∃ crossed place', looked.HasRead options text layout (read ++ crossed) place' ∧
      (∀ q, looked.opened = some q → (read ++ crossed).getLast? = some (.lexeme (.quote q))) ∧
      (added = [] → s.queue ++ new <:+ (read ++ crossed).getLast?.toList.flatMap Part.tokens) := by
  cases hlooks with
  | stay =>
    refine ⟨[], place, ?_, ?_, ?_⟩
    · rwa [List.append_nil]
    · rw [List.append_nil]
      exact fun q => h.opened
    · rw [List.append_nil, List.append_nil]
      exact h.queue
  | @scan token looked hqueue hscan =>
    obtain ⟨stretch, place', hstep, rfl, hcross, hstands⟩ := hread.standsAt.of_scan hscan
    refine ⟨stretch.parts, place', hread.of_passes (hcross.passes hstep hstands), ?_, ?_⟩
    · intro q hopened
      have hlast := hstep.last_of_opened (hstands.opened.symm.trans hopened)
      rw [Stretch.parts, hlast, Option.toList_some, ← List.append_assoc]
      exact List.getLast?_concat
    · rw [hqueue, List.nil_append, hcross.tokens hqueue]
      exact fun _ => stretch.tokens_suffix read

/-- No call but one that puts a token back brings more to the queue than it reads. -/
theorem Tidy.of_perform (h : s.Tidy read added) (hread : s.HasRead options text layout read place)
    (hperform : s.perform call = (.ok reply, s')) :
    ∃ crossed place', s'.HasRead options text layout (read ++ crossed) place' ∧
      s'.Tidy (read ++ crossed) (added ++ call.added.toList) := by
  obtain ⟨new, looked, hperforms⟩ := performs_of_perform hperform
  obtain ⟨crossed, place', hlooked, hopened, hqueue⟩ := h.of_looks hread hperforms.looks
  refine ⟨crossed, place',
    hlooked.congr hperforms.options hperforms.reader hperforms.opened, ?_, ?_⟩
  · intro q hq
    exact hopened q (hperforms.opened.symm.trans hq)
  · intro hnone
    obtain ⟨hadded, hcall⟩ := List.append_eq_nil_iff.mp hnone
    have hwaits := hperforms.queue
    rw [hcall, List.append_nil] at hwaits
    exact (List.suffix_append _ _).trans (hwaits ▸ hqueue hadded)

theorem Silent.queue_of_run (h : s.Silent) (hqueue : s.queue = [])
    (hadded : Call.allAdded calls = []) : (s.run calls).2.queue = [] := by
  induction calls generalizing s with
  | nil => exact hqueue
  | cons call calls ih =>
    rw [Call.allAdded_cons] at hadded
    obtain ⟨hcall, hcalls⟩ := List.append_eq_nil_iff.mp hadded
    refine ih (h.perform call) ?_ hcalls
    rcases hperform : s.perform call with ⟨fault | reply, s'⟩
    · obtain ⟨t, event, rfl⟩ := exists_abort_of_fault hperform
      rfl
    · obtain ⟨new, looked, hperforms⟩ := performs_of_perform hperform
      obtain ⟨rfl, rfl⟩ := h.eq_of_looks hperforms.looks
      have hwaits := hperforms.queue
      rw [hqueue, hcall] at hwaits
      exact (List.append_eq_nil_iff.mp hwaits).2

/-- Behind a run the session is tidy, or a fault has come and nothing waits but what was put
    back. -/
theorem Tidy.of_run (h : s.Tidy read added) (hread : s.HasRead options text layout read place)
    (calls : List Call) :
    (∃ read' place', (s.run calls).2.HasRead options text layout read' place' ∧
      (s.run calls).2.Tidy read' (added ++ Call.allAdded calls)) ∨
    (s.run calls).2.opened = none ∧
      (added ++ Call.allAdded calls = [] → (s.run calls).2.queue = []) := by
  induction calls generalizing s read place added with
  | nil => exact .inl ⟨read, place, hread, by simpa [Call.allAdded] using h⟩
  | cons call calls ih =>
    rw [Session.run]
    rcases hperform : s.perform call with ⟨fault | reply, s'⟩
    · have hsilent := silent_of_fault hperform
      refine .inr ⟨(hsilent.run calls).opened, fun hnone => ?_⟩
      rw [Call.allAdded_cons, List.append_eq_nil_iff, List.append_eq_nil_iff] at hnone
      obtain ⟨t, event, rfl⟩ := exists_abort_of_fault hperform
      exact hsilent.queue_of_run rfl hnone.2.2
    · obtain ⟨crossed, place', hread', htidy⟩ := h.of_perform hread hperform
      have hlater := ih htidy hread'
      rwa [List.append_assoc] at hlater

/-! ## Literal Bodies -/

/-- Between the two, the body of one literal was read at most, and that while no token waited.
    Reading a body leaves one event of its own kind in the log. -/
def ReadsAtMostOneBody (s s' : Session) : Prop :=
  ∃ events : List Event, s'.log = events ++ s.log ∧
    (events.filter Event.isLiteral = [] ∨
      s.queue = [] ∧ ∃ q event, s.opened = some q ∧ (s.scanBody q).2.log = event :: s.log ∧
        events.filter Event.isLiteral = [event])

theorem exists_event_scanBody (s : Session) (q : Quote) :
    ∃ event : Event, event.isLiteral ∧ (s.scanBody q).2.log = event :: s.log := by
  unfold scanBody
  split <;> exact ⟨_, rfl, rfl⟩

/-- A gap and a lexeme leave no event of a literal body. -/
theorem exists_log_scanLexeme (s : Session) :
    ∃ events : List Event, s.scanLexeme.2.log = events ++ s.log ∧
      events.filter Event.isLiteral = [] := by
  have hcaptures : (s.gapDocs.map fun doc => Event.captured doc.kind doc.line).reverse.filter
      Event.isLiteral = [] := by
    simp [List.filter_eq_nil_iff, Event.isLiteral]
  unfold scanLexeme
  dsimp only
  split
  · exact ⟨_, rfl, hcaptures⟩
  · exact ⟨.openComment _ :: _, rfl, hcaptures⟩
  · exact ⟨.token _ _ :: _, rfl, hcaptures⟩

theorem ReadsAtMostOneBody.append {s'' : Session} (h : s.ReadsAtMostOneBody s')
    (events : List Event) (hlog : s''.log = events ++ s'.log)
    (hevents : events.filter Event.isLiteral = []) : s.ReadsAtMostOneBody s'' := by
  obtain ⟨older, holder, hbody⟩ := h
  refine ⟨events ++ older, by rw [hlog, holder, List.append_assoc], ?_⟩
  rwa [List.filter_append, hevents, List.nil_append]

theorem readsAtMostOneBody_scan (hqueue : s.queue = []) : s.ReadsAtMostOneBody s.scan.2 := by
  cases hopened : s.opened with
  | none =>
    obtain ⟨events, hlog, hevents⟩ := s.exists_log_scanLexeme
    rw [scan_of_not_opened hopened]
    exact ⟨events, hlog, .inl hevents⟩
  | some q =>
    obtain ⟨event, hliteral, hlog⟩ := s.exists_event_scanBody q
    rw [scan_of_opened hopened]
    exact ⟨[event], hlog, .inr ⟨hqueue, q, event, hopened, hlog, by simp [hliteral]⟩⟩

theorem readsAtMostOneBody_of_looks (h : s.Looks new looked) : s.ReadsAtMostOneBody looked := by
  cases h with
  | stay => exact ⟨[], rfl, .inl rfl⟩
  | scan hqueue hscan =>
    have hreads := readsAtMostOneBody_scan hqueue
    rwa [hscan] at hreads

/-- No call reads more than one body, and none where a token waits. -/
theorem readsAtMostOneBody_perform (s : Session) (call : Call) :
    s.ReadsAtMostOneBody (s.perform call).2 := by
  rcases hperform : s.perform call with ⟨fault | reply, s'⟩
  · rcases fault_of_perform hperform with ⟨hqueue, hscan⟩ | ⟨wanted, -, hrefuses⟩
    · have hreads := readsAtMostOneBody_scan hqueue
      rwa [hscan] at hreads
    · obtain ⟨actual, peeked, hpeek, -, -, rfl⟩ := hrefuses.refused
      obtain ⟨new, looked, hlooks, rfl, -⟩ := looks_of_peek hpeek
      exact (readsAtMostOneBody_of_looks hlooks).append [.refused fault] rfl rfl
  · obtain ⟨new, looked, hperforms⟩ := performs_of_perform hperform
    refine (readsAtMostOneBody_of_looks hperforms.looks).append _ hperforms.log ?_
    cases reply with
    | doc text => cases text <;> rfl
    | _ => rfl

/-! ## Every Session -/

/-- The quote that was read last is the character in front of the session. -/
theorem HasRead.head?_behind {q : Quote} (h : s.HasRead options text layout read place)
    (hlast : read.getLast? = some (.lexeme (.quote q))) :
    s.reader.behind.head? = some q.char := by
  obtain ⟨front, rfl⟩ := List.getLast?_eq_some_iff.mp hlast
  rw [h.behind]
  simp [Part.chars, Lexeme.chars]

/-- The comment in the slot ends on a line that the session has counted. -/
theorem Follows.counted {doc : Doc} (h : s.Follows options text layout read place)
    (hslot : s.slot = some doc) : doc.Counted s.line := by
  obtain ⟨returned, hholds⟩ := h.holds
  obtain ⟨upTo, hlatest, -⟩ := hholds.of_slot hslot
  have hcounted := Part.counted_of_latest hlatest
  rwa [List.reverse_reverse, ← h.hasRead.options, ← h.hasRead.line] at hcounted

/-- How the fields of a session hang together. -/
structure Coherent (s : Session) : Prop where
  /-- The quote of an open literal is the character in front of the session. -/
  opened {q : Quote} : s.opened = some q →
    (q.char = '"' ∨ q.char = '\'') ∧ s.reader.behind.head? = some q.char
  /-- A literal body is read only while no token waits. -/
  body (call : Call) : s.ReadsAtMostOneBody (s.perform call).2
  slot {doc : Doc} : s.slot = some doc → doc.Counted s.line

/-- Every session that calls lead to is coherent. If none of them put a token back, what waits are
    the last tokens of the part that was read last, and in front of an open literal that is its
    quote. -/
theorem coherent_of_run (options : Options) (text : String) (calls : List Call) :
    ∃ layout : Layout, layout.Divides (Text.dropMark text.toList) ∧
      ((ofString options text).run calls).2.Coherent ∧
      (Call.allAdded calls = [] →
        Waiting (partsBehind layout ((ofString options text).run calls).2).getLast?
            ((ofString options text).run calls).2.queue ∧
          ∀ q, ((ofString options text).run calls).2.opened = some q →
            ((ofString options text).run calls).2.queue = [] ∨
              ((ofString options text).run calls).2.queue = [q.token]) := by
  obtain ⟨layout, hlayout⟩ := Layout.exists_divides (Text.dropMark text.toList)
  generalize hs : ((ofString options text).run calls).2 = s
  have hslot {doc : Doc} (hdoc : s.slot = some doc) : doc.Counted s.line := by
    rcases (follows_ofString options hlayout).run calls with ⟨read, place, hfollows⟩ | hsilent
    · exact (hs ▸ hfollows).counted hdoc
    · cases (hs ▸ hsilent.slot).symm.trans hdoc
  rcases (tidy_ofString options text).of_run (hasRead_ofString options hlayout) calls with
    ⟨read, place, hread, htidy⟩ | ⟨hopened, hqueue⟩
  · rw [hs] at hread htidy
    refine ⟨layout, hlayout, ⟨?_, s.readsAtMostOneBody_perform, hslot⟩, ?_⟩
    · intro q hq
      exact ⟨by cases q <;> simp [Quote.char], hread.head?_behind (htidy.opened hq)⟩
    · intro hadded
      have hsuffix := htidy.queue hadded
      rw [hread.partsBehind_eq]
      refine ⟨waiting_of_suffix hsuffix, fun q hq => ?_⟩
      rw [htidy.opened hq, Option.toList_some, List.flatMap_singleton, Part.tokens,
        Lexeme.token_quote] at hsuffix
      rcases List.suffix_cons_iff.mp hsuffix with hwaits | hnil
      · exact .inr hwaits
      · exact .inl (List.suffix_nil.mp hnil)
  · rw [hs] at hopened hqueue
    refine ⟨layout, hlayout, ⟨?_, s.readsAtMostOneBody_perform, hslot⟩, ?_⟩
    · intro q hq
      cases hopened.symm.trans hq
    · intro hadded
      rw [hqueue (by simpa using hadded)]
      exact ⟨.nothing, fun _ _ => .inl rfl⟩

end Session

end SchemaLex
