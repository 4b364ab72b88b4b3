-- SUMMARY: The answers to a sequence of calls with the sessions behind them, for pairs of sessions.
import Mathlib.Data.List.Forall2
import SchemaLex.Proofs.Session.Course
import SchemaLex.Reader.Caret

/-!
# Histories

A caller sees the answer to each call and, behind it, the line and the place of the session. Calls
that ask for no comment tell nothing of what counts as documentation: `seen_everyComment`.
-/

namespace SchemaLex

/-- The call asks for a comment. -/
def Call.IsLookup : Call → Prop
  | leading => True
  | trailing _ => True
  | _ => False

namespace Session

/-- The answers to a sequence of calls, each with the session behind it. -/
def history (s : Session) : List Call → List (Except Fault Reply × Session)
  | [] => []
  | call :: calls => s.perform call :: (s.perform call).2.history calls

/-- The answers, each with the line and the place in the text behind it. Places count bytes. -/
def seen (s : Session) (calls : List Call) : List (Except Fault Reply × Nat × Nat) :=
  (s.history calls).map fun answered =>
    (answered.1, answered.2.line, answered.2.reader.caret.offset)

variable {R : Session → Session → Prop} {s t : Session} {call : Call} {calls : List Call}

namespace Lockstep

/-- Sessions in lockstep answer a call alike if it asks for no comment. -/
theorem perform (h : Lockstep R) (hst : R s t) (hcall : ¬ call.IsLookup) :
    Alike R (s.perform call) (t.perform call) := by
  cases call with
  | next => exact (h.next hst).map _
  | peek => exact (h.peek hst).map _
  | enqueue token => exact .intro _ (h.enqueue hst token)
  | accept wanted => exact (h.accept hst wanted).map _
  | require wanted => exact (h.require hst wanted).map _
  | leading => exact absurd trivial hcall
  | trailing line => exact absurd trivial hcall

theorem history (h : Lockstep R) (hst : R s t) (hcalls : ∀ call ∈ calls, ¬ call.IsLookup) :
    List.Forall₂ (Alike R) (s.history calls) (t.history calls) := by
  induction calls generalizing s t with
  | nil => exact .nil
  | cons call calls ih =>
    obtain ⟨hcall, hlater⟩ := List.forall_mem_cons.mp hcalls
    have halike := h.perform hst hcall
    refine .cons halike ?_
    generalize s.perform call = a at halike ⊢
    generalize t.perform call = b at halike ⊢
    cases halike with
    | intro answer hrel => exact ih hrel hlater

end Lockstep

/-- Sessions that differ in nothing but documentation look the same. -/
theorem SameButDocs.seen_eq (h : s.SameButDocs t) (hcalls : ∀ call ∈ calls, ¬ call.IsLookup) :
    s.seen calls = t.seen calls := by
  have hhistory := lockstep_sameButDocs.history h hcalls
  unfold seen
  generalize s.history calls = first at hhistory
  generalize t.history calls = last at hhistory
  induction hhistory with
  | nil => rfl
  | @cons a b _ _ halike _ ih =>
    rw [List.map_cons, List.map_cons, ih]
    cases halike with
    | intro answer hrel => rw [line, line, hrel.reader]

/-- What counts as documentation changes neither an answer nor a fault, nor the line and the place
    behind a call, as long as no call asks for a comment. -/
theorem seen_everyComment (countLiteralLines : Bool) (text : String)
    (hcalls : ∀ call ∈ calls, ¬ call.IsLookup) :
    (ofString ⟨true, countLiteralLines⟩ text).seen calls =
      (ofString ⟨false, countLiteralLines⟩ text).seen calls :=
  SameButDocs.seen_eq ⟨rfl, rfl, rfl, rfl⟩ hcalls

/-- Comments without a body, a run of line comments that the end of the text cuts, and a block
    comment that opens in it. -/
theorem seen_everyComment_short_comments :
    (∀ call ∈ [Call.peek, .enqueue "y", .accept "x", .next, .require ";"], ¬ call.IsLookup) ∧
      (ofString ⟨true, false⟩ "/**//***/x\n// a\n  //b\n/**").seen
          [.peek, .enqueue "y", .accept "x", .next, .require ";"] =
        [(.ok (.token (some "x")), 1, 10), (.ok .done, 1, 10), (.ok (.matched true), 1, 10),
          (.ok (.token (some "y")), 1, 10), (.error (.openComment 4), 4, 25)] := by
  have hcalls : ∀ call ∈ [Call.peek, .enqueue "y", .accept "x", .next, .require ";"],
      ¬ call.IsLookup := by simp [Call.IsLookup]
  refine ⟨hcalls, ?_⟩
  rw [seen_everyComment false _ hcalls]
  decide +kernel

end Session

end SchemaLex
