-- SUMMARY: The latest documentation comment behind a place of a text.
import SchemaLex.Options
import SchemaLex.Proofs.Doc.Run
import SchemaLex.Proofs.Layout.Parts

/-!
# The Latest Documentation Comment

Which documentation comment was passed last is told by the parts of the text behind a place, read
backwards from there: `Part.latest`. Nothing ahead of the place matters. A reader that goes forwards
meets the same comments: `docEnding?_of_marked` for one item, `latest_of_run` for a run of `//`
comments that makes up one.
-/

namespace SchemaLex

namespace Part

/-! ## Reading Backwards

The parts behind a place are listed from the place on, the latest first. -/

/-- Only indentation lies behind the place on its line. -/
def atIndent (back : List Part) : Bool :=
  ((back.reverse.flatMap chars).reverse.takeWhile (· != '\n')).all Text.isIndent

/-- The bodies of the `//` comments on the lines directly above the place that have their lines for
    themselves, the latest first. -/
def linesAbove : List Part → List (List Char)
  | trivia (.blank c) :: back => if Text.isIndent c then linesAbove back else []
  | trivia (.line text _) :: back => if atIndent back then text :: linesAbove back else []
  | _ => []

/-- The body of a comment without its marker, if the comment is documentation. -/
def docBody? (everyComment : Bool) (kind : Doc.Kind) (text : List Char) : Option (List Char) :=
  if everyComment then some text
  else if text.head? = some kind.marker then some text.tail
  else none

/-- The documentation comment that ends with an item. Where every comment is documentation, a `//`
    comment that has its line for itself continues those above it. The line is the one of the last
    character, so the newline that ends a `//` comment does not count. -/
def docEnding? (options : Options) (back : List Part) : Trivia → Option Doc
  | .blank _ => none
  | .line text _ =>
    let above := if options.everyComment && atIndent back then linesAbove back else []
    (docBody? options.everyComment .line text).map fun inner =>
      ⟨.line,
        String.ofList (Doc.normalize options.everyComment (Text.unlines (inner :: above).reverse)),
        lineBehind options.countLiteralLines back.reverse⟩
  | .block text =>
    (docBody? options.everyComment .block text).map fun inner =>
      ⟨.block, String.ofList (Doc.normalize options.everyComment inner),
        lineBehind options.countLiteralLines (trivia (.block text) :: back).reverse⟩

/-- The latest documentation comment behind the place, with the parts up to its end. -/
def latest (options : Options) : List Part → Option (Doc × List Part)
  | [] => none
  | trivia t :: back =>
    ((docEnding? options back t).map fun doc => (doc, trivia t :: back)).or (latest options back)
  | _ :: back => latest options back

/-- What lies behind the items of a gap. -/
def behindGap (back : List Part) (ts : List Trivia) : List Part := (ts.map trivia).reverse ++ back

@[simp] theorem behindGap_nil (back : List Part) : behindGap back [] = back := rfl

@[simp] theorem behindGap_cons (back : List Part) (t : Trivia) (ts : List Trivia) :
    behindGap back (t :: ts) = behindGap (trivia t :: back) ts := by
  simp [behindGap]

/-- The latest comment lies behind the place. -/
theorem suffix_of_latest {options : Options} {back upTo : List Part} {doc : Doc}
    (h : latest options back = some (doc, upTo)) : upTo <:+ back := by
  induction back with
  | nil => cases h
  | cons p back ih =>
    cases p with
    | trivia t =>
      rw [latest] at h
      cases hdoc : docEnding? options back t with
      | some found =>
        rw [hdoc] at h
        obtain ⟨-, rfl⟩ := Prod.mk.inj (Option.some.inj h)
        exact List.suffix_rfl
      | none =>
        rw [hdoc] at h
        exact (ih h).trans (List.suffix_cons _ _)
    | _ => exact (ih h).trans (List.suffix_cons _ _)

end Part

namespace Trivia

/-- Behind a run there is no further one. -/
theorem run_run (ts : List Trivia) : (run (run ts).2).1 = [] := by
  induction ts with
  | nil => rfl
  | cons t ts ih =>
    cases t with
    | blank c =>
      rw [run]
      split
      · exact ih
      · next h => simp [run, h]
    | line body ended => exact ih
    | block body => rfl

end Trivia

/-! ## Readers -/

/-- The reader stands behind these parts of its text, listed the latest first. -/
structure Reader.Behind (r : Reader) (inLiterals : Bool) (back : List Part) : Prop where
  behind : r.behind = (back.reverse.flatMap Part.chars).reverse
  line : r.line = Part.lineBehind inLiterals back.reverse

namespace Reader.Behind

variable {r : Reader} {inLiterals : Bool} {back : List Part} {p : Part} {ps : List Part}
  {t : Trivia} {ts : List Trivia} {rest : List Char}

theorem atIndent (h : r.Behind inLiterals back) : Part.atIndent back = r.atIndent := by
  rw [Part.atIndent, Reader.atIndent, h.behind]

theorem cross (h : r.Behind inLiterals back) (hahead : r.ahead = p.chars ++ rest) :
    (r.cross inLiterals p).Behind inLiterals (p :: back) := by
  constructor
  · rw [behind_cross hahead, h.behind]
    simp
  · rw [line_cross hahead, h.line, List.reverse_cons, Part.lineBehind_append]
    simp

theorem foldl_cross (h : r.Behind inLiterals back)
    (hahead : r.ahead = ps.flatMap Part.chars ++ rest) :
    (ps.foldl (Reader.cross inLiterals) r).Behind inLiterals (ps.reverse ++ back) := by
  induction ps generalizing r back with
  | nil => exact h
  | cons p ps ih =>
    rw [List.flatMap_cons, List.append_assoc] at hahead
    rw [List.reverse_cons, List.append_assoc]
    exact ih (h.cross hahead) (ahead_cross hahead)

theorem pass (h : r.Behind inLiterals back) (hahead : r.ahead = t.chars ++ rest) :
    (r.pass t).Behind inLiterals (.trivia t :: back) :=
  h.cross (p := .trivia t) hahead

theorem foldl_pass (h : r.Behind inLiterals back)
    (hahead : r.ahead = ts.flatMap Trivia.chars ++ rest) :
    (ts.foldl Reader.pass r).Behind inLiterals (Part.behindGap back ts) := by
  rw [← Part.flatMap_chars_trivia] at hahead
  rw [← foldl_cross_trivia]
  exact h.foldl_cross hahead

end Reader.Behind

/-! ## Reading Forwards -/

namespace Doc

variable {options : Options} {r : Reader} {back : List Part} {t : Trivia} {ts : List Trivia}
  {rest : List Char}

theorem docEnding?_of_marked (hmarked : options.everyComment = false)
    (hr : r.Behind options.countLiteralLines back) (hahead : r.ahead = t.chars ++ rest) :
    Part.docEnding? options back t = ofMarked? r t := by
  have hpass := (hr.pass hahead).line
  cases t with
  | blank c => rfl
  | line body ended =>
    cases body with
    | nil => simp [Part.docEnding?, Part.docBody?, ofMarked?, hmarked]
    | cons c cs =>
      by_cases hc : c = '/'
      · subst hc
        simp [Part.docEnding?, Part.docBody?, ofMarked?, hmarked, Kind.marker, hr.line]
      · simp [Part.docEnding?, Part.docBody?, ofMarked?, hmarked, Kind.marker, hc]
  | block body =>
    cases body with
    | nil => simp [Part.docEnding?, Part.docBody?, ofMarked?, hmarked]
    | cons c cs =>
      by_cases hc : c = '*'
      · subst hc
        simp [Part.docEnding?, Part.docBody?, ofMarked?, hmarked, Kind.marker, hpass]
      · simp [Part.docEnding?, Part.docBody?, ofMarked?, hmarked, Kind.marker, hc]

/-- A run in front of the place is one comment with the `//` comments above it, and ends on the line
    of its last. -/
theorem latest_of_run (hevery : options.everyComment)
    (hr : r.Behind options.countLiteralLines back) (hindent : r.atIndent)
    (hahead : r.ahead = ts.flatMap Trivia.chars ++ rest) (hgap : Trivia.IsGap ts rest)
    (hrun : (Trivia.run ts).1 ≠ []) :
    Part.latest options (Part.behindGap back (Trivia.run ts).1) =
      some (⟨.line,
        String.ofList (normalize true (Text.unlines
          ((Part.linesAbove back).reverse ++ Trivia.lineBodies (Trivia.run ts).1))),
        r.line + ((Trivia.lineBodies (Trivia.run ts).1).length - 1)⟩,
        Part.behindGap back (Trivia.run ts).1) := by
  induction ts generalizing r back with
  | nil => exact absurd rfl hrun
  | cons t ts ih =>
    have hfront : r.ahead = t.chars ++ (ts.flatMap Trivia.chars ++ rest) := by simpa using hahead
    have hpassed := hr.pass hfront
    have hahead' := Reader.ahead_pass_of_eq_append hfront
    cases t with
    | blank c =>
      obtain ⟨hc, hbelow, hcons⟩ := Trivia.run_blank_of_ne_nil hrun
      have hline : (r.pass (.blank c)).line = r.line :=
        Reader.line_foldl_pass_indent (List.forall_mem_singleton.mpr hc) hahead
      have habove : Part.linesAbove (.trivia (.blank c) :: back) = Part.linesAbove back := by
        simp [Part.linesAbove, hc]
      have hnext := Reader.atIndent_pass_indent hc hahead hindent
      have hlatest := ih hpassed hnext hahead' hgap.2 hbelow
      rw [habove, hline] at hlatest
      rw [hcons]
      simpa [Trivia.lineBodies] using hlatest
    | line body ended =>
      have hback := hr.atIndent.trans hindent
      by_cases hbelow : (Trivia.run ts).1 = []
      · simp [Trivia.run, hbelow, Trivia.lineBodies, Part.latest, Part.docEnding?, Part.docBody?,
          hevery, hback, hr.line]
      · have hended : ended = true := by
          refine Trivia.IsGap.ended hgap ?_
          rintro rfl
          exact hbelow rfl
        subst hended
        have hline : (r.pass (.line body true)).line = r.line + 1 :=
          Reader.line_pass_line hgap.1 hfront
        have hnext := Reader.atIndent_pass_line hfront
        have habove : Part.linesAbove (.trivia (.line body true) :: back) =
            body :: Part.linesAbove back := by
          simp [Part.linesAbove, hback]
        have hlatest := ih hpassed hnext hahead' hgap.2 hbelow
        have hpos := List.length_pos_iff.mpr (Trivia.lineBodies_run_ne_nil hbelow)
        have hsum : r.line + 1 + ((Trivia.lineBodies (Trivia.run ts).1).length - 1) =
            r.line + ((Trivia.lineBodies (Trivia.run ts).1).length + 1 - 1) := by omega
        rw [habove, hline, hsum] at hlatest
        simp only [Trivia.run, Part.behindGap_cons, hlatest, Trivia.lineBodies, List.length_cons,
          List.reverse_cons, List.append_assoc, List.singleton_append]
    | block body => exact absurd rfl hrun

end Doc

end SchemaLex
