-- SUMMARY: The documentation comments of a gap, in order.
import SchemaLex.Doc
import SchemaLex.Doc.Text
import SchemaLex.Reader

/-!
# Captured Comments

Which comments of a gap are documentation. As a rule a third slash or a second star marks one, and
the marker is no part of its body. Where every comment is documentation no marker is needed, and a
line comment that has its line for itself takes in the line comments of the lines below it.
-/

namespace SchemaLex.Doc

/-! ## Marked Comments -/

/-- The documentation that an item in front of the reader is, if the item carries the marker. -/
def ofMarked? (r : Reader) : Trivia → Option Doc
  | .line ('/' :: body) _ => some ⟨.line, String.ofList (normalize false body), r.line⟩
  | .block ('*' :: body) =>
    some ⟨.block, String.ofList (normalize false body), (r.pass (.block ('*' :: body))).line⟩
  | _ => none

/-- The marked comments among the items in front of the reader. -/
def marked (r : Reader) : List Trivia → List Doc
  | [] => []
  | t :: ts => (ofMarked? r t).toList ++ marked (r.pass t) ts

/-! ## Every Comment -/

/-- The items below a line comment in front of the reader that make up one comment with it, and the
    items left. Only a comment on a line of its own takes in any. -/
def absorbed (r : Reader) (below : List Trivia) : List Trivia × List Trivia :=
  if r.atIndent then Trivia.run below else ([], below)

theorem length_absorbed_le (r : Reader) (below : List Trivia) :
    (absorbed r below).2.length ≤ below.length := by
  unfold absorbed
  split
  · exact Trivia.length_run_le below
  · exact Nat.le_refl _

/-- Every comment among the items in front of the reader. Line comments of consecutive lines make up
    one, which ends on the line of the last. -/
def every (r : Reader) : List Trivia → List Doc
  | [] => []
  | .blank c :: ts => every (r.pass (.blank c)) ts
  | .block body :: ts =>
    let passed := r.pass (.block body)
    ⟨.block, String.ofList (normalize true body), passed.line⟩ :: every passed ts
  | .line body ended :: ts =>
    have := length_absorbed_le r ts
    let below := absorbed r ts
    let bodies := Trivia.lineBodies below.1
    let text := normalize true (Text.unlines (body :: bodies))
    ⟨.line, String.ofList text, r.line + bodies.length⟩ ::
      every (below.1.foldl Reader.pass (r.pass (.line body ended))) below.2
termination_by ts => ts.length

/-- The documentation comments among the items in front of the reader. -/
def captured (everyComment : Bool) (r : Reader) (ts : List Trivia) : List Doc :=
  if everyComment then every r ts else marked r ts

@[simp] theorem captured_nil (everyComment : Bool) (r : Reader) :
    captured everyComment r [] = [] := by
  cases everyComment <;> simp [captured, every, marked]

end SchemaLex.Doc
