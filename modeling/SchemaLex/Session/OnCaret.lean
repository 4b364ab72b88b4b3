-- SUMMARY: A session whose place is a caret, with the calls of a session.
import SchemaLex.Caret.Scan
import SchemaLex.Session.Call

/-!
# Sessions on a Caret

The same calls, answered by a session that knows its place by a byte offset. A call has no answer
where its caret has none: see `SchemaLex.Caret.Scan`. The one line that is computed besides, that
below a comment, has to be a line number as well.
-/

namespace SchemaLex

/-- The state of a session on a caret. -/
structure CaretSession where
  /-- What the caller asked for. -/
  options : Options
  /-- The place in the text. -/
  caret : Caret
  /-- The tokens that come before any scanning, the next one first. -/
  queue : List String
  /-- The quote of a literal whose body comes next in the text. -/
  opened : Option Quote
  /-- The latest documentation comment, until it is handed out. -/
  slot : Option Doc
  /-- What happened, the latest first. -/
  log : List Event

namespace CaretSession

/-- A session at the start of a text. -/
def ofString (options : Options) (text : String) : CaretSession :=
  ⟨options, .ofString text, [], none, none, []⟩

/-- Ends a session by a fault, which is recorded as the given event. -/
def abort {α : Type} (s : CaretSession) (fault : Fault) (event : Event) :
    Except Fault α × CaretSession :=
  (.error fault,
    { s with
      caret := s.caret.toEnd, queue := [], opened := none, slot := none
      log := event :: s.log })

/-! ## Scanning -/

/-- Scans the body of a literal that `q` opened. -/
def scanBody? (s : CaretSession) (q : Quote) :
    Option (Except Fault (Option String) × CaretSession) :=
  (s.caret.body? q s.options.countLiteralLines).map fun
    | (none, _) => s.abort (.openLiteral s.caret.line) (.openLiteral q s.caret.line)
    | (some body, caret) =>
      (.ok (some (String.ofList (Literal.decode body))),
        { s with
          caret, queue := s.queue ++ [q.token], opened := none
          log := .body (String.ofList body) caret.line :: s.log })

/-- Moves over a gap and captures its documentation comments, and whether a block comment stays
    open. The last of the comments takes the slot. -/
def skipGap? (s : CaretSession) : Option (Bool × CaretSession) := do
  let start ← s.caret.skipMark?
  let (docs, isOpen, caret) ← start.gap? s.options.everyComment
  return (isOpen,
    { s with
      caret, slot := docs.getLast?.or s.slot
      log := (docs.map fun d => Event.captured d.kind d.line).reverse ++ s.log })

/-- Scans a gap and the lexeme behind it. -/
def scanLexeme? (s : CaretSession) : Option (Except Fault (Option String) × CaretSession) := do
  let (isOpen, s) ← s.skipGap?
  if isOpen then return s.abort (.openComment s.caret.line) (.openComment s.caret.line)
  else if s.caret.atEnd then return (.ok none, s)
  else
    let (text, caret) ← s.caret.lexeme?
    let token := String.ofList text
    return (.ok (some token),
      { s with
        caret, opened := Quote.ofChar? s.caret.current
        log := .token token caret.line :: s.log })

/-- Scans the next token of the text, `none` at its end. -/
def scan? (s : CaretSession) : Option (Except Fault (Option String) × CaretSession) :=
  match s.opened with
  | some q => s.scanBody? q
  | none => s.scanLexeme?

/-! ## The Queue -/

/-- Takes the next token, `none` at the end of the text. -/
def next? (s : CaretSession) : Option (Except Fault (Option String) × CaretSession) :=
  match s.queue with
  | token :: rest => some (.ok (some token), { s with queue := rest })
  | [] => s.scan?

/-- Puts a token behind those that wait and in front of all that is not yet scanned. -/
def enqueue (s : CaretSession) (token : String) : CaretSession :=
  { s with queue := s.queue ++ [token] }

/-- Looks at the next token without taking it. -/
def peek? (s : CaretSession) : Option (Except Fault (Option String) × CaretSession) :=
  match s.queue with
  | token :: _ => some (.ok (some token), s)
  | [] => s.scan?.map fun
    | (.ok (some token), s) => (.ok (some token), { s with queue := token :: s.queue })
    | scanned => scanned

/-- Takes the next token if it is the wanted one, and tells whether it is. -/
def accept? (s : CaretSession) (wanted : String) : Option (Except Fault Bool × CaretSession) :=
  s.peek?.map fun
    | (.ok actual, s) =>
      if actual = some wanted then (.ok true, { s with queue := s.queue.tail }) else (.ok false, s)
    | (.error fault, s) => (.error fault, s)

/-- Takes the next token, which has to be the wanted one. -/
def require? (s : CaretSession) (wanted : String) : Option (Except Fault Unit × CaretSession) :=
  s.peek?.map fun
    | (.ok actual, s) =>
      if actual = some wanted then (.ok (), { s with queue := s.queue.tail })
      else
        let fault := Fault.unexpected actual wanted s.caret.line
        s.abort fault (.refused fault)
    | (.error fault, s) => (.error fault, s)

/-! ## Comments -/

/-- Hands out the comment in the session's slot. -/
def takeDoc (s : CaretSession) (rule : Doc → Bool) : Option String × CaretSession :=
  let handed := Doc.handOut rule s.slot s.log
  (handed.1, { s with slot := handed.2.1, log := handed.2.2 })

/-- Hands out the comment that ends on the line above the session's. The line below the comment is
    computed for that, if the comment has text. -/
def takeLeading? (s : CaretSession) : Option (Option String × CaretSession) :=
  if s.slot.all fun doc => !doc.hasText || doc.line + 1 ≤ Caret.maxLine then
    some (s.takeDoc (Session.leads s.caret.line))
  else none

/-- Hands out the line comment on `line`. If no comment with text waits, the next token is scanned
    first, and with it the gap before it. -/
def takeTrailing? (s : CaretSession) (line : Nat) :
    Option (Except Fault (Option String) × CaretSession) :=
  if s.slot.any Doc.hasText then
    let (text, s) := s.takeDoc (Session.trails line)
    some (.ok text, s)
  else
    s.peek?.map fun
      | (.ok _, s) =>
        let (text, s) := s.takeDoc (Session.trails line)
        (.ok text, s)
      | (.error fault, s) => (.error fault, s)

/-! ## Calls -/

/-- Answers a call. -/
def perform? (s : CaretSession) : Call → Option (Except Fault Reply × CaretSession)
  | .next => s.next?.map fun (answer, s) => (answer.map .token, s)
  | .peek => s.peek?.map fun (answer, s) => (answer.map .token, s)
  | .enqueue token => some (.ok .done, s.enqueue token)
  | .accept wanted => (s.accept? wanted).map fun (answer, s) => (answer.map .matched, s)
  | .require wanted =>
    (s.require? wanted).map fun (answer, s) => (answer.map fun _ => .matched true, s)
  | .leading => s.takeLeading?.map fun (text, s) => (.ok (.doc text), s)
  | .trailing line => (s.takeTrailing? line).map fun (answer, s) => (answer.map .doc, s)

/-- Answers a sequence of calls, a fault among them or not. -/
def run? (s : CaretSession) : List Call → Option (List (Except Fault Reply) × CaretSession)
  | [] => some ([], s)
  | call :: calls => do
    let (answer, s) ← s.perform? call
    let (answers, s) ← s.run? calls
    return (answer :: answers, s)

end CaretSession

end SchemaLex
