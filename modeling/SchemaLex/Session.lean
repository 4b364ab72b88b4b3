-- SUMMARY: Lexing sessions: their state, scanning, the queue of tokens, and the end by a fault.
import SchemaLex.Doc.Captured
import SchemaLex.Event
import SchemaLex.Lexeme
import SchemaLex.Literal.Escape
import SchemaLex.Options

/-!
# Sessions

A session hands a parser the tokens of a text one by one. A literal makes three tokens: its quote,
its value and its quote again. Tokens that are scanned but not yet taken, and tokens that the caller
puts back, wait in a queue. The latest documentation comment waits in a slot. A fault ends the
session: all that waits is dropped and nothing is left to read.
-/

namespace SchemaLex

/-- The state of a session. -/
structure Session where
  /-- What the caller asked for. -/
  options : Options
  /-- The place in the text. -/
  reader : Reader
  /-- The tokens that come before any scanning, the next one first. -/
  queue : List String
  /-- The quote of a literal whose body comes next in the text. -/
  opened : Option Quote
  /-- The latest documentation comment, until it is handed out. -/
  slot : Option Doc
  /-- What happened, the latest first. -/
  log : List Event
  deriving DecidableEq

namespace Session

/-- A session at the start of a text. -/
def ofString (options : Options) (text : String) : Session :=
  ⟨options, .ofChars text.toList, [], none, none, []⟩

/-- The line that the session has reached. -/
def line (s : Session) : Nat := s.reader.line

/-- Ends a session by a fault, which is recorded as the given event. -/
def abort {α : Type} (s : Session) (fault : Fault) (event : Event) : Except Fault α × Session :=
  (.error fault,
    { s with
      reader := s.reader.toEnd, queue := [], opened := none, slot := none
      log := event :: s.log })

/-! ## Scanning -/

/-- The items of the gap in front of the reader. -/
def gapItems (s : Session) : List Trivia := (Trivia.gap s.reader.skipMark.ahead).1

/-- The documentation comments of that gap. -/
def gapDocs (s : Session) : List Doc :=
  Doc.captured s.options.everyComment s.reader.skipMark s.gapItems

/-- Moves over the gap and captures its documentation comments. The last of them takes the slot. -/
def skipGap (s : Session) : Session :=
  { s with
    reader := s.gapItems.foldl Reader.pass s.reader.skipMark
    slot := s.gapDocs.getLast?.or s.slot
    log := (s.gapDocs.map fun d => Event.captured d.kind d.line).reverse ++ s.log }

/-- Scans the body of a literal that `q` opened. The quote that closes it waits behind the tokens in
    the queue. -/
def scanBody (s : Session) (q : Quote) : Except Fault (Option String) × Session :=
  match Literal.split? q s.reader.ahead with
  | none => s.abort (.openLiteral s.line) (.openLiteral q s.line)
  | some (body, _) =>
    let width := body.length + 1
    let reader :=
      if s.options.countLiteralLines then s.reader.advance width else s.reader.leap width
    (.ok (some (String.ofList (Literal.decode body))),
      { s with
        reader, queue := s.queue ++ [q.token], opened := none
        log := .body (String.ofList body) reader.line :: s.log })

/-- Scans a gap and the lexeme behind it. -/
def scanLexeme (s : Session) : Except Fault (Option String) × Session :=
  let s := s.skipGap
  match s.reader.ahead with
  | [] => (.ok none, s)
  | '/' :: '*' :: _ =>
    let reader := s.reader.advance s.reader.ahead.length
    { s with reader }.abort (.openComment reader.line) (.openComment reader.line)
  | c :: rest =>
    let lexeme := Lexeme.first c rest
    let reader := s.reader.advance lexeme.chars.length
    (.ok (some lexeme.token),
      { s with
        reader, opened := lexeme.quote?
        log := .token lexeme.token reader.line :: s.log })

/-- Scans the next token of the text, `none` at its end. -/
def scan (s : Session) : Except Fault (Option String) × Session :=
  match s.opened with
  | some q => s.scanBody q
  | none => s.scanLexeme

/-! ## The Queue -/

/-- Takes the next token, `none` at the end of the text. -/
def next (s : Session) : Except Fault (Option String) × Session :=
  match s.queue with
  | token :: rest => (.ok (some token), { s with queue := rest })
  | [] => s.scan

/-- Puts a token behind those that wait and in front of all that is not yet scanned. -/
def enqueue (s : Session) (token : String) : Session := { s with queue := s.queue ++ [token] }

/-- Looks at the next token without taking it. -/
def peek (s : Session) : Except Fault (Option String) × Session :=
  match s.queue with
  | token :: _ => (.ok (some token), s)
  | [] =>
    match s.scan with
    | (.ok (some token), s) => (.ok (some token), { s with queue := token :: s.queue })
    | (.ok none, s) => (.ok none, s)
    | (.error fault, s) => (.error fault, s)

/-- Takes the next token if it is the wanted one, and tells whether it is. -/
def accept (s : Session) (wanted : String) : Except Fault Bool × Session :=
  match s.peek with
  | (.ok actual, s) =>
    if actual = some wanted then (.ok true, { s with queue := s.queue.tail }) else (.ok false, s)
  | (.error fault, s) => (.error fault, s)

/-- Takes the next token, which has to be the wanted one. -/
def require (s : Session) (wanted : String) : Except Fault Unit × Session :=
  match s.peek with
  | (.ok actual, s) =>
    if actual = some wanted then (.ok (), { s with queue := s.queue.tail })
    else
      let fault := Fault.unexpected actual wanted s.line
      s.abort fault (.refused fault)
  | (.error fault, s) => (.error fault, s)

end Session

end SchemaLex
