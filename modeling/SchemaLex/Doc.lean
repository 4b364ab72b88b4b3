-- SUMMARY: Documentation comments as a session hands them out.

/-!
# Documentation Comments

A documentation comment has a form, its normalised text and the line it ends on. That line decides
which declaration it belongs to.
-/

namespace SchemaLex

/-- The two forms of a comment. -/
inductive Doc.Kind where
  | line
  | block
  deriving DecidableEq

/-- The character that opens a comment of a form, behind the slash. -/
def Doc.Kind.marker : Doc.Kind → Char
  | line => '/'
  | block => '*'

/-- The name of a form. -/
def Doc.Kind.name : Doc.Kind → String
  | line => "line"
  | block => "block"

/-- A documentation comment. -/
structure Doc where
  /-- Its form. -/
  kind : Doc.Kind
  /-- Its normalised text. -/
  text : String
  /-- The line it ends on. -/
  line : Nat
  deriving DecidableEq

/-- The comment has text to hand out. -/
def Doc.hasText (d : Doc) : Bool := !d.text.isEmpty

end SchemaLex
