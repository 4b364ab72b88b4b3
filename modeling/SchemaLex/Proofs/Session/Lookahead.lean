-- SUMMARY: Calls that only look ahead do not show in the tokens that other calls take.
import SchemaLex.Proofs.Session.Taking

/-!
# Lookahead

A caller may look ahead as often as it likes between the calls that take tokens. What it takes and
the line behind each token are the same as without the looks, and a fault comes once, from the first
call that reaches it: `lookahead_transparent`. The two runs are in step as long as their courses are
the same. The one with the looks may meet the fault first, and from there on neither brings a token.
-/

namespace SchemaLex

/-- A move of a caller: to take a token, or only to look. -/
inductive Move where
  | take (call : Call)
  | look (query : Query)

/-- The question that a move asks. -/
def Move.query : Move → Query
  | take call => .call call
  | look query => query

/-- The calls that take, without the looks in between. -/
def Move.takes : List Move → List Call
  | [] => []
  | take call :: moves => call :: takes moves
  | look _ :: moves => takes moves

namespace Session

/-- Each of the calls takes a token, or the last of them meets a fault. -/
inductive Takes : Session → List Call → Option Fault → Prop where
  | nil (s : Session) : Takes s [] none
  | cons {s s' : Session} {call : Call} {reply : Reply} {calls : List Call} {last : Option Fault}
    (hperform : s.perform call = (.ok reply, s')) (htook : call.Took reply)
    (hlater : Takes s' calls last) : Takes s (call :: calls) last
  | fault {s s' : Session} {call : Call} {fault : Fault} (htaking : call.IsTaking)
    (hperform : s.perform call = (.error fault, s')) : Takes s [call] (some fault)

/-- The looks among the moves only look. -/
def Inserts : Session → List Move → Prop
  | _, [] => True
  | s, .take call :: moves => (s.perform call).2.Inserts moves
  | s, .look query :: moves => s.OnlyLooks query ∧ (s.ask query).2.Inserts moves

/-- The session behind a sequence of questions. -/
def after (s : Session) (queries : List Query) : Session :=
  queries.foldl (fun s query => (s.ask query).2) s

/-- The tokens that questions take, each with the line directly behind it. -/
def deliveries (s : Session) : List Query → List (String × Nat)
  | [] => []
  | query :: queries =>
    let asked := s.ask query
    (asked.1.taken query).toList.map (fun token => (token, asked.2.line)) ++
      asked.2.deliveries queries

/-- The faults that questions meet. -/
def faults (s : Session) : List Query → List Fault
  | [] => []
  | query :: queries => (s.ask query).1.fault?.toList ++ (s.ask query).2.faults queries

variable {s s' f p p' : Session} {call : Call} {reply : Reply} {query : Query}
  {wanted : String} {fault : Fault} {last : Option Fault} {moves : List Move}

/-! ## Moves -/

theorem scanned_of_next {actual : Option String} {n : Nat} :
    s.next ≠ (.error (.unexpected actual wanted n), s') := by
  intro h
  obtain ⟨-, hscan⟩ := fault_of_next h
  unfold scan at hscan
  split at hscan
  · unfold scanBody at hscan
    split at hscan <;> cases hscan
  · unfold scanLexeme at hscan
    dsimp only at hscan
    split at hscan <;> cases hscan

theorem Ended.deliveries_and_faults (h : s.Ended)
    (hmoves : ∀ move ∈ moves, ∀ token, move.query ≠ .call (.enqueue token)) :
    s.deliveries (moves.map Move.query) = [] ∧
      ∀ fault ∈ s.faults (moves.map Move.query), ∃ wanted n, fault = .unexpected none wanted n ∧
        ∃ move ∈ moves, move.query = .call (.require wanted) := by
  induction moves generalizing s with
  | nil => exact ⟨rfl, nofun⟩
  | cons move moves ih =>
    obtain ⟨hhere, hlater⟩ := List.forall_mem_cons.mp hmoves
    obtain ⟨hended, htaken, hfault⟩ := h.ask hhere
    obtain ⟨hdeliveries, hfaults⟩ := ih hended hlater
    constructor
    · simp [deliveries, htaken, hdeliveries]
    · intro fault hmem
      rcases List.mem_append.mp hmem with hmem | hmem
      · obtain ⟨wanted, n, rfl, hquery⟩ := hfault fault (Option.mem_toList.mp hmem)
        exact ⟨wanted, n, rfl, move, List.mem_cons_self, hquery⟩
      · obtain ⟨wanted, n, rfl, found, hfound, hquery⟩ := hfaults fault hmem
        exact ⟨wanted, n, rfl, found, List.mem_cons_of_mem _ hfound, hquery⟩

theorem mem_takes {call : Call} (h : .take call ∈ moves) : call ∈ Move.takes moves := by
  induction moves with
  | nil => cases h
  | cons move moves ih =>
    cases move with
    | take other =>
      rcases List.mem_cons.mp h with heq | hmem
      · rw [Move.take.inj heq]
        exact List.mem_cons_self
      · exact List.mem_cons_of_mem _ (ih hmem)
    | look query =>
      rcases List.mem_cons.mp h with heq | hmem
      · cases heq
      · exact ih hmem

theorem Takes.isTaking {calls : List Call} (h : s.Takes calls last) :
    ∀ call ∈ calls, call.IsTaking := by
  induction h with
  | nil s => exact nofun
  | cons hperform htook _ ih => exact List.forall_mem_cons.mpr ⟨Call.isTaking_of_took htook, ih⟩
  | fault htaking hperform => exact List.forall_mem_singleton.mpr htaking

theorem Inserts.onlyLooks {query : Query} (h : s.Inserts moves) (hmem : .look query ∈ moves) :
    ∃ s' : Session, s'.OnlyLooks query := by
  induction moves generalizing s with
  | nil => cases hmem
  | cons move moves ih =>
    rcases List.mem_cons.mp hmem with rfl | hlater
    · exact ⟨s, h.1⟩
    · cases move with
      | take call => exact ih h hlater
      | look other => exact ih h.2 hlater

/-- The moves that insert looks put no token back. -/
theorem Inserts.ne_enqueue (h : s.Inserts moves)
    (htakes : ∀ call ∈ Move.takes moves, call.IsTaking) :
    ∀ move ∈ moves, ∀ token, move.query ≠ .call (.enqueue token) := by
  intro move hmem token hquery
  cases move with
  | take call =>
    obtain rfl := Query.call.inj hquery
    cases htakes _ (mem_takes hmem)
  | look query =>
    subst hquery
    obtain ⟨s', hlooks⟩ := h.onlyLooks hmem
    cases hlooks

/-- A token is required by a move that takes. -/
theorem Inserts.take_of_require {move : Move} (h : s.Inserts moves) (hmem : move ∈ moves)
    (hquery : move.query = .call (.require wanted)) : .take (.require wanted) ∈ moves := by
  cases move with
  | take call =>
    obtain rfl := Query.call.inj hquery
    exact hmem
  | look query =>
    subst hquery
    obtain ⟨s', hlooks⟩ := h.onlyLooks hmem
    cases hlooks

/-- One of the moves meets the fault, behind all tokens that the moves take. Behind it the fault
    does not come again, and another one only where a token is required. -/
def RaisesOnce (s : Session) (moves : List Move) (fault : Fault) : Prop :=
  ∃ first move rest t, moves = first ++ move :: rest ∧
    s.faults (first.map Move.query) = [] ∧
    s.deliveries (first.map Move.query) = s.deliveries (moves.map Move.query) ∧
    (s.after (first.map Move.query)).ask move.query = (.reply (.error fault), t) ∧
    fault ∉ t.faults (rest.map Move.query) ∧
    ∀ other ∈ t.faults (rest.map Move.query), ∃ wanted n,
      other = .unexpected none wanted n ∧ .take (.require wanted) ∈ rest

theorem RaisesOnce.cons {move : Move} (hfault : (s.ask move.query).1.fault? = none)
    (h : (s.ask move.query).2.RaisesOnce moves fault) : s.RaisesOnce (move :: moves) fault := by
  obtain ⟨first, raising, rest, t, rfl, hfaults, hdeliveries, hask, hnew, hothers⟩ := h
  refine ⟨move :: first, raising, rest, t, rfl, ?_, ?_, hask, hnew, hothers⟩
  · simp [faults, hfault, hfaults]
  · simp [deliveries, hdeliveries]

/-- The fault comes from the next move, and the session has then ended. -/
theorem raisesOnce_of_ask {move : Move} (hask : s.ask move.query = (.reply (.error fault), s'))
    (hended : s'.Ended) (hinserts : s'.Inserts moves)
    (htakes : ∀ call ∈ Move.takes moves, call.IsTaking)
    (hnew : (∀ wanted n, fault ≠ .unexpected none wanted n) ∨ Move.takes moves = []) :
    s.deliveries ((move :: moves).map Move.query) = [] ∧ s.RaisesOnce (move :: moves) fault := by
  obtain ⟨hdeliveries, hfaults⟩ := hended.deliveries_and_faults (hinserts.ne_enqueue htakes)
  have hothers : ∀ other ∈ s'.faults (moves.map Move.query), ∃ wanted n,
      other = .unexpected none wanted n ∧ .take (.require wanted) ∈ moves := by
    intro other hother
    obtain ⟨wanted, n, rfl, found, hmem, hquery⟩ := hfaults other hother
    exact ⟨wanted, n, rfl, hinserts.take_of_require hmem hquery⟩
  have hall : s.deliveries ((move :: moves).map Move.query) = [] := by
    have htaken : (Answer.reply (.error fault)).taken move.query = none := by
      unfold Answer.taken
      split
      · next heq => cases heq
      · rfl
    simp [deliveries, hask, hdeliveries, htaken]
  refine ⟨hall, [], move, moves, s', rfl, rfl, hall.symm, hask, ?_, hothers⟩
  intro hmem
  obtain ⟨wanted, n, rfl, htake⟩ := hothers fault hmem
  rcases hnew with hnew | hnone
  · exact hnew wanted n rfl
  · have := mem_takes htake
    rw [hnone] at this
    cases this

/-! ## Both Runs -/

theorem deliveries_of_fault (h : s.perform call = (.error fault, s')) :
    s.deliveries [.call call] = [] := by
  simp only [deliveries, ask, h]
  rfl

/-- Where a fault lies ahead, calls that take bring nothing but that fault. -/
theorem Takes.of_next_fault {calls : List Call} (h : s.Takes calls last)
    (hnext : s.next = (.error fault, s')) :
    s.deliveries (calls.map .call) = [] ∧ ∀ other, last = some other → other = fault := by
  cases h with
  | nil => exact ⟨rfl, nofun⟩
  | cons hperform htook hlater => cases hnext.symm.trans (next_of_took hperform htook)
  | fault htaking hperform =>
    refine ⟨deliveries_of_fault hperform, fun other hother => ?_⟩
    have hsame := (perform_of_next_fault htaking hnext).symm.trans hperform
    rw [← Option.some.inj hother, Except.error.inj (Prod.mk.inj hsame).1]

/-- Of two sessions on one course, the one that also looks takes the same tokens. -/
theorem transparent_of_course (hcourse : f.course = p.course)
    (htakes : p.Takes (Move.takes moves) last) (hinserts : f.Inserts moves) :
    f.deliveries (moves.map Move.query) = p.deliveries ((Move.takes moves).map .call) ∧
      ∀ fault, last = some fault → f.RaisesOnce moves fault := by
  induction moves generalizing f p with
  | nil =>
    cases htakes with
    | nil => exact ⟨rfl, nofun⟩
  | cons move moves ih =>
    cases move with
    | take call =>
      change p.Takes (call :: Move.takes moves) last at htakes
      change (f.perform call).2.Inserts moves at hinserts
      generalize hcalls : Move.takes moves = calls at htakes
      cases htakes with
      | @cons _ p' _ reply _ _ hperform htook hlater =>
        subst hcalls
        obtain ⟨f', hf, hline, hcourse'⟩ := take_of_took hcourse hperform htook
        rw [hf] at hinserts
        obtain ⟨hdeliveries, hraises⟩ := ih hcourse' hlater hinserts
        have hask : f.ask (Move.take call).query = (.reply (.ok reply), f') := by
          rw [Move.query, ask, hf]
        have hask' : p.ask (.call call) = (.reply (.ok reply), p') := by rw [ask, hperform]
        constructor
        · simp only [Move.takes, List.map_cons, deliveries, hask, hask', hdeliveries, hline]
          rfl
        · intro fault hlast
          exact RaisesOnce.cons (by rw [hask]; rfl) (by rw [hask]; exact hraises fault hlast)
      | @fault _ _ _ fault htaking hperform =>
        obtain ⟨f', hf, hended⟩ := take_of_fault hcourse htaking hperform
        rw [hf] at hinserts
        have hask : f.ask (Move.take call).query = (.reply (.error fault), f') := by
          rw [Move.query, ask, hf]
        obtain ⟨hdeliveries, hraises⟩ := raisesOnce_of_ask hask hended hinserts
          (by rw [hcalls]; exact List.forall_mem_nil _) (.inr hcalls)
        refine ⟨hdeliveries.trans ?_, fun other hother => Option.some.inj hother ▸ hraises⟩
        rw [Move.takes, hcalls]
        exact (deliveries_of_fault hperform).symm
    | look query =>
      obtain ⟨hlooks, hinserts⟩ := hinserts
      change p.Takes (Move.takes moves) last at htakes
      rcases course_of_onlyLooks hlooks with ⟨fault, f', hnext, hask⟩ | ⟨htaken, hfault, hsame⟩
      · -- Without the look, the next call that takes would have met the same fault.
        have hnew : ∀ wanted n, fault ≠ .unexpected none wanted n := by
          rintro wanted n rfl
          exact scanned_of_next hnext
        have hp : p.next = (.error fault, p.next.2) :=
          Prod.ext ((next_of_course hcourse).1.symm.trans (by rw [hnext])) rfl
        rw [hask] at hinserts
        have hask' : f.ask (Move.look query).query = (.reply (.error fault), f') := hask
        obtain ⟨hdeliveries, hraises⟩ := raisesOnce_of_ask hask' (ended_of_next hnext (by simp))
          hinserts htakes.isTaking (.inl hnew)
        obtain ⟨hnone, honly⟩ := htakes.of_next_fault hp
        exact ⟨hdeliveries.trans hnone.symm, fun other hother => honly other hother ▸ hraises⟩
      · obtain ⟨hdeliveries, hraises⟩ := ih (hsame.trans hcourse) htakes hinserts
        constructor
        · simp [deliveries, Move.query, Move.takes, htaken, hdeliveries]
        · intro fault hlast
          exact RaisesOnce.cons hfault (hraises fault hlast)

/-- Looks in between change neither the tokens that a caller takes nor the line behind each, and a
    fault at the end of the calls that take comes once and is the same. -/
theorem lookahead_transparent {options : Options} {text : String}
    (htakes : (ofString options text).Takes (Move.takes moves) last)
    (hinserts : (ofString options text).Inserts moves) :
    (ofString options text).deliveries (moves.map Move.query) =
        (ofString options text).deliveries ((Move.takes moves).map .call) ∧
      ∀ fault, last = some fault → (ofString options text).RaisesOnce moves fault :=
  transparent_of_course rfl htakes hinserts

/-- A look meets the fault of a literal that stays open, in place of the call behind it. -/
theorem lookahead_transparent_open_literal :
    (ofString {} "'b").deliveries [.call (.accept "x"), .call .next, .call (.trailing 1),
        .call .next] = [("'", 1)] ∧
      (ofString {} "'b").RaisesOnce [.look (.call (.accept "x")), .take .next,
        .look (.call (.trailing 1)), .take .next] (.openLiteral 1) := by
  have hquote : ((ofString {} "'b").perform .next).1 = .ok (.token (some "'")) := by
    decide +kernel
  have hbody : (((ofString {} "'b").perform .next).2.perform .next).1 =
      .error (.openLiteral 1) := by decide +kernel
  have htakes : (ofString {} "'b").Takes (Move.takes [.look (.call (.accept "x")), .take .next,
      .look (.call (.trailing 1)), .take .next]) (some (.openLiteral 1)) :=
    .cons (Prod.ext hquote rfl) trivial (.fault trivial (Prod.ext hbody rfl))
  have hinserts : (ofString {} "'b").Inserts [.look (.call (.accept "x")), .take .next,
      .look (.call (.trailing 1)), .take .next] :=
    ⟨fun hcame => absurd hcame (by decide +kernel), trivial, trivial⟩
  obtain ⟨hdeliveries, hraises⟩ := lookahead_transparent htakes hinserts
  exact ⟨hdeliveries.trans (by decide +kernel), hraises _ rfl⟩

end Session

end SchemaLex
