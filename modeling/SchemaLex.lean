import SchemaLex.Proofs.Layout
import SchemaLex.Proofs.Session.Scanning
import SchemaLex.Reader.Caret
import SchemaLex.Session.Call
import SchemaLex.Session.Drained
import SchemaLex.Proofs.Session.Layout
import SchemaLex.Proofs.Rendering
import SchemaLex.Proofs.Doc.Marked
import SchemaLex.Proofs.Session.Trailing
import SchemaLex.Proofs.Doc.Run
import SchemaLex.Proofs.Doc.Text
import SchemaLex.Proofs.Session.Lockstep
import SchemaLex.Proofs.Doc.Mark
import SchemaLex.Proofs.Session.Mark
import SchemaLex.Proofs.Layout.Parts
import SchemaLex.Proofs.Session.Place
import SchemaLex.Proofs.Session.Calls
import SchemaLex.Proofs.Session.Passage
import SchemaLex.Proofs.Session.Merge
import SchemaLex.Proofs.Session.Lines
import SchemaLex.Proofs.Doc.Latest
import SchemaLex.Proofs.Session.Slot
import SchemaLex.Proofs.Session.Course
import SchemaLex.Proofs.Session.Lookahead
import SchemaLex.Proofs.Session.History
import SchemaLex.Proofs.Doc.Shift
import SchemaLex.Proofs.Session.LiteralLines
import SchemaLex.Proofs.Doc.Sequence
import SchemaLex.Proofs.Session.HandedOut
import SchemaLex.Proofs.Session.Leading
import SchemaLex.Proofs.Session.Final
import SchemaLex.Proofs.Session.Joined
import SchemaLex.Proofs.Session.Returns
import SchemaLex.Proofs.Session.OnCaret
import SchemaLex.Proofs.Session.Items
import SchemaLex.Proofs.Session.Wanted
import SchemaLex.Proofs.Session.Bodies
import SchemaLex.Proofs.Session.CommentLines
import SchemaLex.Proofs.Literal.Spelled
import SchemaLex.Proofs.Doc.Indented
import SchemaLex.Proofs.Doc.Apart
import SchemaLex.Proofs.Doc.Written
import SchemaLex.Proofs.Session.Written
import SchemaLex.Caret.Walk
import SchemaLex.Proofs.Caret.Walk
import SchemaLex.Proofs.Doc.Captured
import SchemaLex.Proofs.Session.Log
import SchemaLex.Proofs.Session.Coherent
