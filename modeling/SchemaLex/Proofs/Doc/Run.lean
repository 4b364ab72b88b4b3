-- SUMMARY: Line comments of consecutive lines as one documentation comment.
import SchemaLex.Doc.Captured
import SchemaLex.Proofs.Reader
import SchemaLex.Proofs.Trivia.Gap

/-!
# Runs of Line Comments

Where every comment is documentation, a reader at the start of a line takes the whole run of line
comments in front of it as one: `every_of_run`. Nothing is documentation only where nothing is a
comment.
-/

namespace SchemaLex

namespace Trivia

variable {ts : List Trivia} {rest : List Char}

/-- The item is a comment, of either form. -/
def IsComment : Trivia → Prop
  | blank _ => False
  | _ => True

instance : DecidablePred IsComment
  | blank _ => isFalse id
  | line _ _ => isTrue trivial
  | block _ => isTrue trivial

theorem lineBodies_append (ts us : List Trivia) :
    lineBodies (ts ++ us) = lineBodies ts ++ lineBodies us := by
  induction ts with
  | nil => rfl
  | cons t ts ih => cases t <;> simp [lineBodies, ih]

/-- Every line comment of a gap is on one line. -/
theorem IsGap.newline_not_mem_lineBodies (h : IsGap ts rest) :
    ∀ body ∈ lineBodies ts, '\n' ∉ body := by
  induction ts with
  | nil => simp [lineBodies]
  | cons t ts ih =>
    obtain ⟨hfits, hlater⟩ := h
    cases t with
    | blank c => exact ih hlater
    | block body => exact ih hlater
    | line body ended =>
      refine List.forall_mem_cons.mpr ⟨?_, ih hlater⟩
      cases ended with
      | true => exact hfits
      | false => exact hfits.1

theorem IsGap.newline_not_mem_run (h : IsGap ts rest) :
    ∀ body ∈ lineBodies (run ts).1, '\n' ∉ body := by
  intro body hbody
  refine h.newline_not_mem_lineBodies body ?_
  rw [← run_append ts, lineBodies_append]
  exact List.mem_append_left _ hbody

theorem run_blank_of_ne_nil {c : Char} (h : (run (blank c :: ts)).1 ≠ []) :
    Text.isIndent c ∧ (run ts).1 ≠ [] ∧
      run (blank c :: ts) = (blank c :: (run ts).1, (run ts).2) := by
  rw [run] at h ⊢
  split at h
  · next hindent =>
    simp only [Bool.and_eq_true, Bool.not_eq_true', List.isEmpty_eq_false_iff] at hindent
    exact ⟨hindent.1, hindent.2, if_pos (by simp [hindent])⟩
  · exact absurd rfl h

/-- A run has a line comment in it. -/
theorem lineBodies_run_ne_nil (h : (run ts).1 ≠ []) : lineBodies (run ts).1 ≠ [] := by
  induction ts with
  | nil => exact absurd rfl h
  | cons t ts ih =>
    cases t with
    | blank c =>
      obtain ⟨-, hbelow, hrun⟩ := run_blank_of_ne_nil h
      rw [hrun]
      exact ih hbelow
    | line body ended => exact List.cons_ne_nil _ _
    | block body => exact absurd rfl h

end Trivia

namespace Reader

/-- Indentation behind indentation keeps the reader at the start of its line. -/
theorem atIndent_pass_indent {r : Reader} {c : Char} {rest : List Char} (hc : Text.isIndent c)
    (h : r.ahead = c :: rest) (hindent : r.atIndent) : (r.pass (.blank c)).atIndent := by
  have hbehind : (r.pass (.blank c)).behind = c :: r.behind := behind_pass (t := .blank c) h
  have hnewline : c ≠ '\n' := by
    rintro rfl
    exact absurd hc (by decide)
  have hindent' : (r.behind.takeWhile (· != '\n')).all Text.isIndent := hindent
  simp [atIndent, hbehind, hnewline, hc, hindent']

/-- Behind a line comment that a newline ends, the reader is at the start of a line. -/
theorem atIndent_pass_line {r : Reader} {body rest : List Char}
    (h : r.ahead = (Trivia.line body true).chars ++ rest) :
    (r.pass (.line body true)).atIndent := by
  simp [atIndent, behind_pass h, Trivia.chars]

end Reader

namespace Doc

theorem absorbed_append (r : Reader) (below : List Trivia) :
    (absorbed r below).1 ++ (absorbed r below).2 = below := by
  unfold absorbed
  split
  · exact Trivia.run_append below
  · rfl

theorem every_eq_nil_iff {r : Reader} {ts : List Trivia} :
    every r ts = [] ↔ ∀ t ∈ ts, ¬ t.IsComment := by
  induction ts generalizing r with
  | nil => simp [every]
  | cons t ts ih =>
    rw [List.forall_mem_cons]
    cases t with
    | blank c =>
      rw [every, ih]
      exact ⟨fun h => ⟨id, h⟩, And.right⟩
    | line body ended =>
      rw [every]
      exact iff_of_false (List.cons_ne_nil _ _) fun h => h.1 trivial
    | block body =>
      rw [every]
      exact iff_of_false (List.cons_ne_nil _ _) fun h => h.1 trivial

/-- At the start of a line, the run in front of the reader is one comment. It ends on the line of
    the last comment in the run. -/
theorem every_of_run {r : Reader} {ts : List Trivia} {rest : List Char} (hindent : r.atIndent)
    (hahead : r.ahead = ts.flatMap Trivia.chars ++ rest) (hrun : (Trivia.run ts).1 ≠ []) :
    every r ts =
      ⟨.line,
        String.ofList (normalize true (Text.unlines (Trivia.lineBodies (Trivia.run ts).1))),
        r.line + ((Trivia.lineBodies (Trivia.run ts).1).length - 1)⟩ ::
      every ((Trivia.run ts).1.foldl Reader.pass r) (Trivia.run ts).2 := by
  induction ts generalizing r with
  | nil => exact absurd rfl hrun
  | cons t ts ih =>
    cases t with
    | blank c =>
      obtain ⟨hc, hbelow, hcons⟩ := Trivia.run_blank_of_ne_nil hrun
      have hline : (r.pass (.blank c)).line = r.line :=
        Reader.line_foldl_pass_indent (List.forall_mem_singleton.mpr hc) hahead
      have hpassed : (r.pass (.blank c)).ahead = ts.flatMap Trivia.chars ++ rest :=
        Reader.ahead_pass_of_eq_append (t := .blank c) (by simpa using hahead)
      rw [every, ih (Reader.atIndent_pass_indent hc hahead hindent) hpassed hbelow, hcons, hline]
      rfl
    | line body ended =>
      rw [every, absorbed, if_pos hindent]
      rfl
    | block body => exact absurd rfl hrun

end Doc

end SchemaLex
