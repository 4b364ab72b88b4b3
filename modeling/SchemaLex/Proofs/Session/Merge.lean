-- SUMMARY: The tokens that a session hands out: its text's and its caller's, merged in order.
import SchemaLex.Proofs.Session.Passage

/-!
# Merged Tokens

Tokens of the text and tokens that a caller puts back share one queue. What a session hands out is a
merge of the two in which each keeps its order (`taken_merges`). A literal's value and the quote
behind it come to the queue together and are never parted, and a token put back stands between all
that was read before and all that is read later.
-/

namespace SchemaLex

/-- A list is single tokens and groups of tokens, merged. Both keep their order and every group
    stays together. -/
inductive Merges : List String → List (List String) → List String → Prop where
  | nil : Merges [] [] []
  | token {tokens groups merged} (t : String) (h : Merges tokens groups merged) :
    Merges (t :: tokens) groups (t :: merged)
  | group {tokens groups merged} (g : List String) (h : Merges tokens groups merged) :
    Merges tokens (g :: groups) (g ++ merged)

namespace Merges

theorem append {tokens tokens' merged merged' : List String} {groups groups' : List (List String)}
    (h : Merges tokens groups merged) (h' : Merges tokens' groups' merged') :
    Merges (tokens ++ tokens') (groups ++ groups') (merged ++ merged') := by
  induction h with
  | nil => exact h'
  | token t _ ih => exact .token t ih
  | group g _ ih =>
    rw [List.append_assoc]
    exact .group g ih

theorem tokens (ts : List String) : Merges ts [] ts := by
  induction ts with
  | nil => exact .nil
  | cons t ts ih => exact .token t ih

theorem groups (gs : List (List String)) : Merges [] gs gs.flatten := by
  induction gs with
  | nil => exact .nil
  | cons g gs ih => exact .group g ih

end Merges

namespace Call

/-- The tokens that calls take, told from their replies. -/
def allTaken : List Call → List Reply → List String
  | call :: calls, reply :: replies => (call.taken reply).toList ++ allTaken calls replies
  | _, _ => []

/-- The tokens that calls put back. -/
def allAdded (calls : List Call) : List String := calls.flatMap fun call => call.added.toList

end Call

namespace Session

variable {s s' : Session} {place : Place} {calls : List Call} {replies : List Reply}

/-! ## Runs -/

/-- What a run takes and what then waits is what waited at first, and behind it a merge of what the
    calls put back and what they read. -/
theorem StandsAt.merges_of_run (h : s.StandsAt place)
    (hrun : s.run calls = (replies.map .ok, s')) :
    ∃ crossed place' merged, s.Passes place crossed s' place' ∧
      Call.allTaken calls replies ++ s'.queue = s.queue ++ merged ∧
      Merges (Call.allAdded calls) (crossed.map Part.tokens) merged := by
  induction calls generalizing s place replies with
  | nil =>
    obtain ⟨-, rfl⟩ := Prod.mk.inj hrun
    exact ⟨[], place, [], h.passes_nil, by simp [Call.allTaken], .nil⟩
  | cons call calls ih =>
    obtain ⟨reply, replies', t, hperform, rfl, hlater⟩ := run_cons_eq_ok hrun
    obtain ⟨crossed, place', hpasses, hqueue⟩ := h.passes_of_perform hperform
    obtain ⟨crossed', place'', merged, hpasses', hqueue', hmerges⟩ := ih hpasses.standsAt hlater
    refine ⟨crossed ++ crossed', place'',
      call.added.toList ++ crossed.flatMap Part.tokens ++ merged, hpasses.trans hpasses', ?_, ?_⟩
    · calc Call.allTaken (call :: calls) (reply :: replies') ++ s'.queue
          = (call.taken reply).toList ++ (Call.allTaken calls replies' ++ s'.queue) :=
            List.append_assoc ..
        _ = ((call.taken reply).toList ++ t.queue) ++ merged := by rw [hqueue', List.append_assoc]
        _ = s.queue ++ (call.added.toList ++ crossed.flatMap Part.tokens ++ merged) := by
            rw [hqueue]
            simp only [List.append_assoc]
    · have hhere := (Merges.tokens call.added.toList).append
        (Merges.groups (crossed.map Part.tokens))
      rw [List.nil_append, List.append_nil, ← List.flatMap_def] at hhere
      rw [List.map_append]
      exact hhere.append hmerges

/-! ## Draining -/

/-- At the end of the text and in front of what stays open, no token is left to read. -/
theorem StandsAt.tokens_of_next {answer : Except Fault (Option String)} (h : s.StandsAt place)
    (hnext : s.next = (answer, s')) (hnone : ∀ token, answer ≠ .ok (some token)) :
    s.queue = [] ∧ place.parts.flatMap Part.tokens = [] := by
  rcases answer with fault | token | token
  · obtain ⟨hqueue, hscan⟩ := fault_of_next hnext
    refine ⟨hqueue, ?_⟩
    rcases h.fault_of_scan hscan with ⟨marked, gap, body, rfl, -⟩ | ⟨gap, q, body, rfl, -⟩
    · have hparts : (Place.between marked (.last gap (.openComment body))).parts =
          Stretch.parts ⟨marked, gap, none⟩ := by
        simp [Place.parts, Layout.parts, Ending.parts, Stretch.parts]
      rw [hparts, Stretch.flatMap_tokens_parts]
      rfl
    · rfl
  · obtain ⟨hqueue, hscan⟩ := scan_of_next_end hnext
    obtain ⟨stretch, place', hstep, htoken, -, -⟩ := h.of_scan hscan
    have htokens : stretch.tokens = [] := List.head?_eq_none_iff.mp htoken.symm
    refine ⟨hqueue, ?_⟩
    rw [hstep.parts_eq, List.flatMap_append, stretch.flatMap_tokens_parts, htokens,
      hstep.parts_eq_nil htokens]
    rfl
  · exact absurd rfl (hnone token)

/-- Draining brings what waits and then all that is left to read. -/
theorem StandsAt.tokens_drain (h : s.StandsAt place) :
    s.drain.tokens = s.queue ++ place.parts.flatMap Part.tokens := by
  -- Each token taken lowers the weight.
  induction hweight : s.weight using Nat.strongRecOn generalizing s place with
  | ind n ih =>
    rcases hnext : s.next with ⟨fault | token | token, t⟩
    · obtain ⟨hqueue, htokens⟩ := h.tokens_of_next hnext (by simp)
      rw [drain_of_fault hnext, hqueue, htokens, List.nil_append]
    · obtain ⟨hqueue, htokens⟩ := h.tokens_of_next hnext (by simp)
      rw [drain_of_end hnext, hqueue, htokens, List.nil_append]
    · have hperform : s.perform .next = (.ok (.token (some token)), t) := by
        rw [perform, hnext]
        rfl
      obtain ⟨crossed, place', hpasses, hqueue⟩ := h.passes_of_perform hperform
      have hlighter : t.weight < n := by
        have := weight_next hnext
        omega
      calc s.drain.tokens
          = token :: t.drain.tokens := by rw [drain_of_token hnext]
        _ = token :: t.queue ++ place'.parts.flatMap Part.tokens := by
            rw [ih t.weight hlighter hpasses.standsAt rfl]
            rfl
        _ = s.queue ++ crossed.flatMap Part.tokens ++ place'.parts.flatMap Part.tokens := by
            rw [show token :: t.queue = s.queue ++ crossed.flatMap Part.tokens by
              simpa [Call.taken, Call.added] using hqueue]
        _ = s.queue ++ place.parts.flatMap Part.tokens := by
            rw [hpasses.parts, List.flatMap_append, List.append_assoc]

/-! ## The Tokens of a Text -/

/-- A run without a fault leaves behind its first calls a session that answers the others. -/
theorem run_append_eq_ok {first last : List Call}
    (h : s.run (first ++ last) = (replies.map .ok, s')) :
    ∃ before after t, replies = before ++ after ∧ s.run first = (before.map .ok, t) ∧
      t.run last = (after.map .ok, s') ∧
      Call.allTaken (first ++ last) replies =
        Call.allTaken first before ++ Call.allTaken last after := by
  induction first generalizing s replies with
  | nil => exact ⟨[], replies, s, rfl, rfl, h, rfl⟩
  | cons call calls ih =>
    obtain ⟨reply, replies', t, hperform, rfl, hlater⟩ := run_cons_eq_ok h
    obtain ⟨before, after, u, rfl, hfirst, hlast, htaken⟩ := ih hlater
    refine ⟨reply :: before, after, u, rfl, ?_, hlast, ?_⟩
    · simp [run, hperform, hfirst]
    · simp [Call.allTaken, htaken]

/-- A run and the drain behind it hand out what waited at first, and behind it a merge of what the
    calls put back and all that lies ahead. -/
theorem StandsAt.merges_of_drain (h : s.StandsAt place)
    (hrun : s.run calls = (replies.map .ok, s')) :
    ∃ merged, Call.allTaken calls replies ++ s'.drain.tokens = s.queue ++ merged ∧
      Merges (Call.allAdded calls) (place.parts.map Part.tokens) merged := by
  obtain ⟨crossed, place', merged, hpasses, htaken, hmerges⟩ := h.merges_of_run hrun
  refine ⟨merged ++ place'.parts.flatMap Part.tokens, ?_, ?_⟩
  · rw [hpasses.standsAt.tokens_drain, ← List.append_assoc, htaken, List.append_assoc]
  · rw [hpasses.parts, List.map_append, List.flatMap_def]
    simpa using hmerges.append (Merges.groups (place'.parts.map Part.tokens))

/-- What a session hands out over a run without a fault and the drain behind it is a merge of what
    the calls put back and the tokens of the text. A literal's value and the quote that closes it
    are one group of the merge. A token put back comes behind all that was scanned before it, and in
    front of all that was not. -/
theorem taken_merges {options : Options} {text : String} {calls : List Call}
    {replies : List Reply} {s : Session}
    (h : (ofString options text).run calls = (replies.map .ok, s)) :
    ∃ layout, layout.Divides (Text.dropMark text.toList) ∧
      ((Text.parts text.toList layout).map Part.tokens).flatten =
        (ofString options text).drain.tokens ∧
      Merges (Call.allAdded calls) ((Text.parts text.toList layout).map Part.tokens)
        (Call.allTaken calls replies ++ s.drain.tokens) ∧
      ∀ first token last, calls = first ++ .enqueue token :: last →
        ∃ before after s' read ahead later,
          replies = before ++ .done :: after ∧
          (ofString options text).run first = (before.map .ok, s') ∧
          Text.parts text.toList layout = read ++ ahead ∧
          s'.reader.behind.reverse = read.flatMap Part.chars ∧
          Merges (Call.allAdded first) (read.map Part.tokens)
            (Call.allTaken first before ++ s'.queue) ∧
          Merges (Call.allAdded last) (ahead.map Part.tokens) later ∧
          Call.allTaken calls replies ++ s.drain.tokens =
            Call.allTaken first before ++ s'.queue ++ token :: later := by
  obtain ⟨layout, hlayout⟩ := Layout.exists_divides (Text.dropMark text.toList)
  have hstands := standsAt_ofString options hlayout
  refine ⟨layout, hlayout, ?_, ?_, ?_⟩
  · rw [hstands.tokens_drain, ← List.flatMap_def]
    rfl
  · obtain ⟨merged, htaken, hmerges⟩ := hstands.merges_of_drain h
    rw [htaken]
    exact hmerges
  · rintro first token last rfl
    obtain ⟨before, replies', s', rfl, hfirst, hlast, htaken⟩ := run_append_eq_ok h
    obtain ⟨reply, after, t, hperform, rfl, hlater⟩ := run_cons_eq_ok hlast
    obtain ⟨hreply, rfl⟩ := Prod.mk.inj hperform
    obtain rfl := Except.ok.inj hreply
    obtain ⟨read, place, merged, hpasses, hread, hmerges⟩ := hstands.merges_of_run hfirst
    obtain ⟨later, hahead, hmerges'⟩ :=
      (hpasses.standsAt.congr rfl rfl : (s'.enqueue token).StandsAt place).merges_of_drain hlater
    refine ⟨before, after, s', read, place.parts, later, rfl, hfirst, hpasses.parts, ?_, ?_,
      hmerges', ?_⟩
    · rw [hpasses.reader, Reader.behind_foldl_cross (hstands.ahead.trans hpasses.chars)]
      simp [ofString, Reader.ofChars]
    · rw [hread]
      exact hmerges
    · calc Call.allTaken (first ++ .enqueue token :: last) (before ++ .done :: after) ++
            s.drain.tokens
          = Call.allTaken first before ++ (Call.allTaken last after ++ s.drain.tokens) := by
            rw [htaken, List.append_assoc]
            rfl
        _ = Call.allTaken first before ++ s'.queue ++ token :: later := by
            rw [hahead]
            simp [Session.enqueue]

/-- A token put back behind the value of a literal, when the quote that closes it already waits. -/
theorem taken_merges_in_literal :
    ∃ groups, groups.flatten = ["'", "b", "'", "c"] ∧
      Merges ["x"] groups ["'", "b", "'", "x", "c"] := by
  have hrun : (ofString {} "'b' c").run [.next, .peek, .enqueue "x", .accept "b"] =
      ([Reply.token (some "'"), .token (some "b"), .done, .matched true].map .ok,
        ((ofString {} "'b' c").run [.next, .peek, .enqueue "x", .accept "b"]).2) := by
    decide +kernel
  obtain ⟨layout, -, hplain, hmerges, -⟩ := taken_merges hrun
  refine ⟨_, hplain.trans (by decide +kernel), ?_⟩
  have htaken : Call.allTaken [.next, .peek, .enqueue "x", .accept "b"]
      [.token (some "'"), .token (some "b"), .done, .matched true] ++
      ((ofString {} "'b' c").run [.next, .peek, .enqueue "x", .accept "b"]).2.drain.tokens =
      ["'", "b", "'", "x", "c"] := by decide +kernel
  exact htaken ▸ hmerges

end Session

end SchemaLex
