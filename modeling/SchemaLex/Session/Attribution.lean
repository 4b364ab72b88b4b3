-- SUMMARY: Handing out documentation comments: the leading and the trailing rule.
import SchemaLex.Session

/-!
# Attribution

A comment belongs to the declaration below it if it ends on the line above the token just taken, and
to the one beside it if it is a line comment on that line. A comment is handed out at most once, and
only if it has text.
-/

namespace SchemaLex

/-- Hands out the comment in a slot if it has text and the rule admits it: the text, and the slot
    and the log behind that. -/
def Doc.handOut (rule : Doc → Bool) (slot : Option Doc) (log : List Event) :
    Option String × Option Doc × List Event :=
  match slot with
  | some doc =>
    if doc.hasText && rule doc then (some doc.text, none, .attributed doc.text :: log)
    else (none, slot, log)
  | none => (none, slot, log)

namespace Session

/-- Hands out the comment in the session's slot. -/
def takeDoc (s : Session) (rule : Doc → Bool) : Option String × Session :=
  let handed := Doc.handOut rule s.slot s.log
  (handed.1, { s with slot := handed.2.1, log := handed.2.2 })

/-- The comment ends on the line above `line`. -/
def leads (line : Nat) (doc : Doc) : Bool := doc.line + 1 == line

/-- The comment is a line comment on `line`. -/
def trails (line : Nat) (doc : Doc) : Bool := doc.line == line && doc.kind == .line

/-- Hands out the comment that ends on the line above the session's. Nothing is scanned. -/
def takeLeading (s : Session) : Option String × Session := s.takeDoc (leads s.line)

/-- Hands out the line comment on `line`. If no comment with text waits, the next token is scanned
    first, and with it the gap before it. -/
def takeTrailing (s : Session) (line : Nat) : Except Fault (Option String) × Session :=
  if s.slot.any Doc.hasText then
    let (text, s) := s.takeDoc (trails line)
    (.ok text, s)
  else
    match s.peek with
    | (.ok _, s) =>
      let (text, s) := s.takeDoc (trails line)
      (.ok text, s)
    | (.error fault, s) => (.error fault, s)

/-! ## The Slot -/

/-- Handing out a comment empties the slot, else the session stays as it is. -/
theorem takeDoc_eq (s : Session) (rule : Doc → Bool) :
    s.takeDoc rule =
      match s.slot with
      | some doc =>
        if doc.hasText && rule doc then
          (some doc.text, { s with slot := none, log := .attributed doc.text :: s.log })
        else (none, s)
      | none => (none, s) := by
  obtain ⟨options, reader, queue, opened, slot, log⟩ := s
  cases slot with
  | none => rfl
  | some doc =>
    simp only [takeDoc, Doc.handOut]
    split <;> rfl

/-- A comment that is handed out was the one in the slot, and leaves it. -/
theorem takeDoc_of_some {s s' : Session} {rule : Doc → Bool} {text : String}
    (h : s.takeDoc rule = (some text, s')) :
    ∃ doc, s.slot = some doc ∧ doc.text = text ∧ doc.hasText ∧ rule doc ∧ s'.slot = none := by
  rw [takeDoc_eq] at h
  split at h
  · next doc hslot =>
    split at h
    · next hrule =>
      simp only [Prod.mk.injEq, Option.some.injEq] at h
      obtain ⟨rfl, rfl⟩ := h
      simp only [Bool.and_eq_true] at hrule
      exact ⟨doc, hslot, rfl, hrule.1, hrule.2, rfl⟩
    · simp at h
  · simp at h

/-- A lookup that finds nothing leaves the session as it is. -/
theorem takeDoc_of_none {s s' : Session} {rule : Doc → Bool} (h : s.takeDoc rule = (none, s')) :
    s' = s := by
  rw [takeDoc_eq] at h
  split at h
  · split at h
    · simp at h
    · exact (Prod.mk.inj h).2.symm
  · exact (Prod.mk.inj h).2.symm

@[simp] theorem reader_takeDoc (s : Session) (rule : Doc → Bool) :
    (s.takeDoc rule).2.reader = s.reader := rfl

@[simp] theorem queue_takeDoc (s : Session) (rule : Doc → Bool) :
    (s.takeDoc rule).2.queue = s.queue := rfl

@[simp] theorem opened_takeDoc (s : Session) (rule : Doc → Bool) :
    (s.takeDoc rule).2.opened = s.opened := rfl

@[simp] theorem options_takeDoc (s : Session) (rule : Doc → Bool) :
    (s.takeDoc rule).2.options = s.options := rfl

end Session

end SchemaLex
