-- SUMMARY: The two switches of a lexing session.

/-!
# Options

What a session may be told. Both switches are off unless a caller turns them on. Neither changes the
tokens: one decides which comments are documentation, the other which newlines count.
-/

namespace SchemaLex

/-- The switches of a lexing session. -/
structure Options where
  /-- Every comment is documentation, with or without the doc marker, and the `//` comments of
      consecutive lines make up one. -/
  everyComment : Bool := false
  /-- The newlines inside quoted literals count as lines. -/
  countLiteralLines : Bool := false
  deriving DecidableEq

end SchemaLex
