-- SUMMARY: What a session records about its run, and the wording of the records.
import SchemaLex.Doc
import SchemaLex.Fault
import SchemaLex.Literal
import SchemaLex.Text.Quoted

/-!
# Events

A session records each token it scans, each comment it captures or hands out and each fault it
meets. An event keeps what happened; the level and the wording are functions of it.
-/

namespace SchemaLex

/-- How much detail an event belongs to. -/
inductive Event.Level where
  | trace
  | debug
  deriving DecidableEq

/-- The name of a level. -/
def Event.Level.name : Event.Level → String
  | trace => "trace"
  | debug => "debug"

/-- Something that happened in a session. Lines are those reached by the event. -/
inductive Event where
  /-- A lexeme was scanned. -/
  | token (text : String) (line : Nat)
  /-- A literal body was scanned; `raw` is the body as it is written. -/
  | body (raw : String) (line : Nat)
  /-- A documentation comment was captured. -/
  | captured (kind : Doc.Kind) (line : Nat)
  /-- A documentation comment was handed out. -/
  | attributed (text : String)
  /-- The text ended inside a block comment. -/
  | openComment (line : Nat)
  /-- The text ended inside a literal. -/
  | openLiteral (quote : Quote) (line : Nat)
  /-- A required token did not come. -/
  | refused (fault : Fault)
  deriving DecidableEq

namespace Event

/-- Scanning is recorded in detail, everything else in outline. -/
def level : Event → Level
  | token .. => .trace
  | body .. => .trace
  | _ => .debug

/-- The wording of an event. -/
def message : Event → String
  | token text line =>
    let shown := Text.quoted text
    s!"token {shown} on line {line}"
  | body raw line =>
    let shown := Text.quoted raw
    s!"literal body {shown} on line {line}"
  | captured kind line =>
    let form := kind.name
    s!"captured {form} doc comment ending on line {line}"
  | attributed text =>
    let shown := Text.quoted text
    s!"attributed doc comment Some({shown})"
  | openComment line => s!"block comment still open at end of input (line {line})"
  | openLiteral quote line =>
    let mark := quote.token
    s!"{mark} literal never closed (line {line})"
  | refused fault => fault.message

end Event

end SchemaLex
