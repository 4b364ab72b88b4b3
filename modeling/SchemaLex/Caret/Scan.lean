-- SUMMARY: Scanning by byte offsets, where each cut, each line number and each loop is checked.
import SchemaLex.Caret
import SchemaLex.Doc
import SchemaLex.Doc.Text
import SchemaLex.Lexeme

/-!
# Scanning with a Caret

A scanner that knows places by their byte offsets finds the end of what it scans first and then cuts
the text there. That can go wrong in four ways, and the answer is `none` in each: a cut falls
inside a character or its ends are out of order, an offset does not fit in 64 bits, a line number
does not fit in 32 bits, or a loop comes no nearer to the end of the text.
-/

namespace SchemaLex.Caret

/-! ## Checked Moves -/

/-- The greatest line number there is. -/
def maxLine : Nat := UInt32.size - 1

/-- The caret, if its line is not beyond the greatest. -/
def counted? (c : Caret) : Option Caret := if c.line ≤ maxLine then some c else none

/-- Moves over up to `count` characters and counts their newlines. -/
def moveBy? (count : Nat) (c : Caret) : Option Caret := (c.advanceBy? count).bind counted?

/-- Moves over the characters of the next `count` bytes and counts their newlines. -/
def moveBytes? (count : Nat) (c : Caret) : Option Caret := do
  let moved ← c.advanceBytes? count
  let _ ← moved.since? c.offset
  moved.counted?

/-- Ends the line: moves over its newline, or only counts the line at the end of the text. -/
def passLineEnd? (c : Caret) : Option Caret := c.endLine?.bind counted?

/-- The number of bytes from the caret to the end of the text. -/
def left (c : Caret) : Nat := Text.byteSize c.text - c.offset

/-- Moves on, character by character, to the first place where `stop` holds. -/
def passUntil? (stop : Caret → Bool) (c : Caret) : Option Caret :=
  if stop c then some c
  else
    match c.moveBy? 1 with
    | none => none
    | some next => if next.left < c.left then next.passUntil? stop else none
termination_by c.left

/-- Drops a byte order mark at the start of the text. -/
def skipMark? (c : Caret) : Option Caret :=
  if c.offset = 0 then
    c.after?.bind fun after => if after.head? = some '\uFEFF' then c.moveBy? 1 else some c
  else some c

/-! ## Line Comments -/

/-- The line ends here. -/
def atLineEnd (c : Caret) : Bool := c.atEnd || c.current == '\n'

/-- The indentation ends here. -/
def atIndentEnd (c : Caret) : Bool := !Text.isIndent c.current

/-- Moves to the end of the line, and the text crossed. -/
def restOfLine? (c : Caret) : Option (List Char × Caret) := do
  let behind ← c.passUntil? atLineEnd
  let body ← behind.since? c.offset
  return (body, behind)

/-- The two slashes of a line comment stand here. -/
def atLineMark (c : Caret) : Bool := c.current == '/' && c.charAt 1 == '/'

/-- The body of the line comment that a line in front of the caret consists of, and its end. Without
    such a comment the caret stays. -/
def nextLine? (c : Caret) : Option (Option (List Char) × Caret) :=
  if c.atEnd then some (none, c)
  else do
    let indented ← c.passUntil? atIndentEnd
    if indented.atLineMark then
      let opened ← indented.moveBy? 2
      let (body, behind) ← opened.restOfLine?
      return (some body, behind)
    else return (none, indented.goTo c.bookmark)

/-- The bodies of the line comments that the lines in front of the caret consist of, with the line
    of the last, `line` if there is none. -/
def linesBelow? (line : Nat) (c : Caret) : Option (List (List Char) × Nat × Caret) :=
  match c.nextLine? with
  | none => none
  | some (none, stay) => some ([], line, stay)
  | some (some body, behind) =>
    match behind.passLineEnd? with
    | none => none
    | some next =>
      if next.left < c.left then
        (next.linesBelow? behind.line).map fun below => (body :: below.1, below.2)
      else none
termination_by c.left

/-- Passes a line comment and those that make up one with it, and the documentation they are. -/
def lineComment? (everyComment : Bool) (c : Caret) : Option (Option Doc × Caret) := do
  let alone ← c.atIndent?
  let opened ← c.moveBy? 2
  let isDoc := everyComment || opened.current == '/'
  let start ← if isDoc && !everyComment then opened.moveBy? 1 else some opened
  let (body, behind) ← start.restOfLine?
  let next ← behind.passLineEnd?
  let (bodies, line, last) ←
    if everyComment && alone then next.linesBelow? behind.line else some ([], behind.line, next)
  let text := Doc.normalize everyComment (Text.unlines (body :: bodies))
  return (if isDoc then some ⟨.line, String.ofList text, line⟩ else none, last)

/-! ## Gaps -/

/-- What stands at a place of a gap. -/
inductive Item where
  /-- White space or a comment, and the documentation that it is. -/
  | passed (doc : Option Doc)
  /-- A block comment that stays open. -/
  | openComment
  /-- The end of the gap. -/
  | nothing

/-- The mark that opens a block comment stands here. -/
def atOpeningMark (c : Caret) : Bool := c.current == '/' && c.charAt 1 == '*'

/-- The mark that closes a block comment stands here. -/
def atClosingMark (c : Caret) : Bool := c.current == '*' && c.charAt 1 == '/'

/-- A block comment ends here, or stays open. -/
def atCommentEnd (c : Caret) : Bool := c.atEnd || c.atClosingMark

/-- The star that marks documentation stands here. That of an empty comment closes it. -/
def atBlockMarker (c : Caret) : Bool := c.current == '*' && c.charAt 1 != '/'

/-- Passes the rest of a block comment, and the body it has. Where the comment stays open, passes
    all that is left. -/
def blockBody? (c : Caret) : Option (Option (List Char) × Caret) := do
  let behind ← c.passUntil? atCommentEnd
  if behind.atEnd then return (none, behind)
  else
    let body ← behind.since? c.offset
    let closed ← behind.moveBy? 2
    return (some body, closed)

/-- Passes a block comment. -/
def blockComment? (everyComment : Bool) (c : Caret) : Option (Item × Caret) := do
  let opened ← c.moveBy? 2
  let isDoc := everyComment || opened.atBlockMarker
  let start ← if isDoc && !everyComment then opened.moveBy? 1 else some opened
  let (body?, next) ← start.blockBody?
  match body? with
  | none => return (.openComment, next)
  | some body =>
    let text := Doc.normalize everyComment body
    return (.passed (if isDoc then some ⟨.block, String.ofList text, next.line⟩ else none), next)

/-- Passes one item of a gap. -/
def item? (everyComment : Bool) (c : Caret) : Option (Item × Caret) :=
  if c.atEnd then some (.nothing, c)
  else if Text.isBlank c.current then (c.moveBy? 1).map fun next => (.passed none, next)
  else if c.atLineMark then
    (c.lineComment? everyComment).map fun (doc, next) => (.passed doc, next)
  else if c.atOpeningMark then c.blockComment? everyComment
  else some (.nothing, c)

/-- Passes a gap: its documentation comments, and whether the text ends inside a block comment. -/
def gap? (everyComment : Bool) (c : Caret) : Option (List Doc × Bool × Caret) :=
  match c.item? everyComment with
  | none => none
  | some (.nothing, stay) => some ([], false, stay)
  | some (.openComment, last) => some ([], true, last)
  | some (.passed doc, next) =>
    if next.left < c.left then
      (next.gap? everyComment).map fun later => (doc.toList ++ later.1, later.2)
    else none
termination_by c.left

/-! ## Lexemes and Literals -/

/-- A word ends here. -/
def atWordEnd (c : Caret) : Bool := c.atEnd || Lexeme.isDelimiter c.current

/-- Passes a lexeme, and its text. -/
def lexeme? (c : Caret) : Option (List Char × Caret) := do
  let next ← c.moveBy? 1
  let behind ←
    if c.current != '/' && !Lexeme.isDelimiter c.current then
      next.passUntil? atWordEnd
    else some next
  let text ← behind.since? c.offset
  return (text, behind)

/-- The offset of the quote that closes a literal, in the text behind the quote that opens it. The
    first character may be one that a backslash protects. -/
def closingOffset? (q : Quote) : Bool → List Char → Option Nat
  | _, [] => none
  | true, c :: cs => (closingOffset? q false cs).map (c.utf8Size + ·)
  | false, c :: cs =>
    if c = '\\' then (closingOffset? q true cs).map (c.utf8Size + ·)
    else if c = q.char then some 0
    else (closingOffset? q false cs).map (c.utf8Size + ·)

/-- Passes the body of a literal and the quote that closes it, and the body. Where none closes the
    literal the caret stays. -/
def body? (q : Quote) (countLines : Bool) (c : Caret) : Option (Option (List Char) × Caret) := do
  let after ← c.after?
  match closingOffset? q false after with
  | none => return (none, c)
  | some size =>
    let (body, _) ← Text.splitAt? after size
    let next ← if countLines then c.moveBytes? (size + 1) else c.leapBytes? (size + 1)
    return (some body, next)

end SchemaLex.Caret
