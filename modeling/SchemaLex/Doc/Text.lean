-- SUMMARY: The text of a documentation comment: decoration and margins removed line by line.
import SchemaLex.Text.Blank
import SchemaLex.Text.Lines

/-!
# Text of a Documentation Comment

The text of a comment is its body without the stars and slashes that decorate its lines and without
the white space around each line and around the whole. Which decoration a line may carry depends on
whether every comment is documentation.
-/

namespace SchemaLex.Doc

/-- A character that decorates the front of a line. -/
def isDecoration (c : Char) : Bool := c == '*' || c == '/'

/-- The line without its decoration: stars and slashes and the spaces on both sides of them. A line
    that has none stays as it is. -/
def undecorate (line : List Char) : List Char :=
  let inner := line.dropWhile (· == ' ')
  if inner.head?.any isDecoration then (inner.dropWhile isDecoration).dropWhile (· == ' ') else line

/-- The same where every comment is documentation: white space, at most one star, then slashes. -/
def undecorateAny (line : List Char) : List Char :=
  let inner := Text.trimStart line
  let inner := if inner.head? == some '*' then inner.tail else inner
  inner.dropWhile (· == '/')

/-- A line of a comment without decoration and margins. -/
def cleanLine (everyComment : Bool) (line : List Char) : List Char :=
  Text.trim (if everyComment then undecorateAny line else undecorate line)

/-- The text of a comment with the given body. -/
def normalize (everyComment : Bool) (body : List Char) : List Char :=
  Text.trim (Text.unlines ((Text.lines body).map (cleanLine everyComment)))

end SchemaLex.Doc
