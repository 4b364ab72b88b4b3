-- SUMMARY: Why a lexing session ends early, and how that is told.

/-!
# Faults

A fault ends the session that meets it. It keeps its cause and the line that the session had
reached; the wording is `Fault.message`.
-/

namespace SchemaLex

/-- Why a session ends early. -/
inductive Fault where
  /-- A block comment is still open where the text ends. -/
  | openComment (line : Nat)
  /-- A quoted literal is still open where the text ends. -/
  | openLiteral (line : Nat)
  /-- A caller required another token than the one that comes, or than the end of the text. -/
  | unexpected (actual : Option String) (expected : String) (line : Nat)
  deriving DecidableEq

namespace Fault

/-- The line that the session had reached. -/
def line : Fault → Nat
  | openComment line => line
  | openLiteral line => line
  | unexpected _ _ line => line

/-- The wording of a fault. The end of the text is told as `<eof>`. -/
def message : Fault → String
  | openComment line => s!"illegal comment (line {line})"
  | openLiteral line => s!"illegal string (line {line})"
  | unexpected actual expected line =>
    let found := actual.getD "<eof>"
    s!"illegal token '{found}', '{expected}' expected (line {line})"

end Fault

end SchemaLex
