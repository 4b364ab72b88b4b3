-- SUMMARY: What a byte order mark at the start of a text changes about its documentation.
import SchemaLex.Proofs.Doc.Run
import SchemaLex.Proofs.Doc.Text

/-!
# Documentation behind a Byte Order Mark

A byte order mark is no indentation, so no reader on the first line is at the start of its line if a
mark lies behind it. That matters where every comment is documentation and the first line is a line
comment that the next lines continue: it no longer takes them in. `SplitsRun` says when this shows
in the last documentation comment of the gap, which is the one that a session keeps.
-/

namespace SchemaLex

namespace Reader

/-- The same place in the text with a byte order mark in front. -/
def behindMark (r : Reader) : Reader := { r with behind := r.behind ++ ['\uFEFF'] }

/-- Something other than indentation lies behind the reader. -/
def Underway (r : Reader) : Prop := r.behind.all Text.isIndent = false

variable {r : Reader}

@[simp] theorem ahead_behindMark (r : Reader) : r.behindMark.ahead = r.ahead := rfl

@[simp] theorem line_behindMark (r : Reader) : r.behindMark.line = r.line := rfl

theorem leap_behindMark (n : Nat) (r : Reader) :
    r.behindMark.leap n = (r.leap n).behindMark := by
  simp [behindMark, leap]

theorem advance_behindMark (n : Nat) (r : Reader) :
    r.behindMark.advance n = (r.advance n).behindMark := by
  simp [behindMark, advance, leap]

theorem toEnd_behindMark (r : Reader) : r.behindMark.toEnd = r.toEnd.behindMark :=
  leap_behindMark r.ahead.length r

theorem pass_behindMark (r : Reader) (t : Trivia) :
    r.behindMark.pass t = (r.pass t).behindMark := by
  simp [behindMark, pass, advance, leap]

theorem foldl_pass_behindMark (ts : List Trivia) (r : Reader) :
    ts.foldl pass r.behindMark = (ts.foldl pass r).behindMark := by
  induction ts generalizing r with
  | nil => rfl
  | cons t ts ih => rw [List.foldl_cons, pass_behindMark, ih, List.foldl_cons]

/-- The mark counts as something other than indentation on the first line, and nowhere else. -/
theorem atIndent_behindMark (r : Reader) :
    r.behindMark.atIndent = (r.atIndent && !r.behind.all Text.isIndent) := by
  have hline : ∀ cs : List Char, ((cs ++ ['\uFEFF']).takeWhile (· != '\n')).all Text.isIndent =
      ((cs.takeWhile (· != '\n')).all Text.isIndent && !cs.all Text.isIndent) := by
    intro cs
    induction cs with
    | nil => decide
    | cons c cs ih =>
      by_cases hnewline : c = '\n'
      · subst hnewline
        simp [Text.isIndent]
      · have hkeep : (c != '\n') = true := by simpa using hnewline
        simp only [List.cons_append, List.takeWhile_cons, hkeep, ↓reduceIte, List.all_cons, ih]
        cases Text.isIndent c <;> simp
  exact hline r.behind

theorem Underway.atIndent_behindMark (h : r.Underway) : r.behindMark.atIndent = r.atIndent := by
  rw [Reader.atIndent_behindMark, h, Bool.not_false, Bool.and_true]

theorem Underway.skipMark (h : r.Underway) : r.skipMark = r :=
  skipMark_of_behind_ne_nil fun hnil => by simp [Underway, hnil] at h

theorem Underway.leap (h : r.Underway) (n : Nat) : (r.leap n).Underway := by
  rw [Underway, behind_leap, List.all_append, h, Bool.and_false]

theorem Underway.pass (h : r.Underway) (t : Trivia) : (r.pass t).Underway :=
  h.leap t.chars.length

theorem Underway.foldl_pass (h : r.Underway) (ts : List Trivia) :
    (ts.foldl Reader.pass r).Underway := by
  induction ts generalizing r with
  | nil => exact h
  | cons t ts ih => exact ih (h.pass t)

/-- A reader with only indentation behind it is at the start of a line. -/
theorem atIndent_of_all (h : r.behind.all Text.isIndent) : r.atIndent :=
  List.all_eq_true.mpr fun c hc =>
    List.all_eq_true.mp h c ((List.takeWhile_prefix _).subset hc)

/-- A reader is underway as soon as it has crossed something other than indentation. -/
theorem underway_advance {n : Nat} {c : Char} (hc : c ∈ r.ahead.take n)
    (hindent : Text.isIndent c = false) : (r.advance n).Underway := by
  refine List.all_eq_false.mpr ⟨c, ?_, by simp [hindent]⟩
  exact List.mem_append_left _ (List.mem_reverse.mpr hc)

theorem underway_pass {t : Trivia} {c : Char} {rest : List Char} (h : r.ahead = t.chars ++ rest)
    (hc : c ∈ t.chars) (hindent : Text.isIndent c = false) : (r.pass t).Underway := by
  refine underway_advance (n := t.chars.length) (c := c) ?_ hindent
  rwa [h, List.take_left]

end Reader

namespace Doc

variable {r : Reader} {ts : List Trivia} {rest : List Char}

theorem marked_behindMark (r : Reader) (ts : List Trivia) :
    marked r.behindMark ts = marked r ts := by
  induction ts generalizing r with
  | nil => rfl
  | cons t ts ih =>
    have hdoc : ofMarked? r.behindMark t = ofMarked? r t := by
      unfold ofMarked?
      rw [Reader.line_behindMark]
      simp only [Reader.pass_behindMark, Reader.line_behindMark]
    rw [marked, hdoc, Reader.pass_behindMark, ih, marked]

theorem every_behindMark (h : r.Underway) (ts : List Trivia) :
    every r.behindMark ts = every r ts := by
  fun_induction every r ts with
  | case1 r => rw [every]
  | case2 r c ts ih => rw [every, Reader.pass_behindMark, ih (h.pass _)]
  | case3 r body ts passed ih =>
    rw [every, Reader.pass_behindMark, ih (h.pass _)]
    rfl
  | case4 r body ended ts hlength below bodies text ih =>
    have hbelow : absorbed r.behindMark ts = below := by
      unfold absorbed
      rw [h.atIndent_behindMark]
      rfl
    rw [every, hbelow, Reader.pass_behindMark, Reader.foldl_pass_behindMark,
      ih ((h.pass _).foldl_pass _)]
    rfl

theorem captured_behindMark (everyComment : Bool) (h : r.Underway) (ts : List Trivia) :
    captured everyComment r.behindMark ts = captured everyComment r ts := by
  cases everyComment with
  | true => exact every_behindMark h ts
  | false => exact marked_behindMark r ts

/-- The last comments of the gap are a run of line comments on its first lines, and the first of
    them has text. -/
def SplitsRun : List Trivia → Prop
  | .blank c :: ts => Text.isIndent c ∧ SplitsRun ts
  | .line body true :: ts =>
    cleanLine true body ≠ [] ∧ (Trivia.run ts).1 ≠ [] ∧ ∀ t ∈ (Trivia.run ts).2, ¬ t.IsComment
  | _ => False

instance decidableSplitsRun : DecidablePred SplitsRun
  | [] => isFalse id
  | .blank _ :: ts =>
    have := decidableSplitsRun ts
    inferInstanceAs (Decidable (_ ∧ _))
  | .line _ true :: _ => inferInstanceAs (Decidable (_ ∧ _ ∧ _))
  | .line _ false :: _ => isFalse id
  | .block _ :: _ => isFalse id

/-- Behind a mark, the line comment of the first line is a comment of its own. -/
theorem getLast?_every_behindMark_line {body : List Char} (hbody : '\n' ∉ body)
    (hgap : Trivia.IsGap ts rest)
    (hahead : r.ahead = (Trivia.line body true).chars ++ (ts.flatMap Trivia.chars ++ rest))
    (hindent : r.behind.all Text.isIndent) :
    (every r.behindMark (.line body true :: ts)).getLast? =
        (every r (.line body true :: ts)).getLast? ↔
      ¬ SplitsRun (.line body true :: ts) := by
  let passed := r.pass (.line body true)
  have hpassed : passed.Underway :=
    Reader.underway_pass (c := '/') hahead (by simp [Trivia.chars]) (by decide)
  have hline : passed.line = r.line + 1 := Reader.line_pass_line hbody hahead
  have halone : absorbed r.behindMark ts = ([], ts) := by
    unfold absorbed
    rw [Reader.atIndent_behindMark, hindent]
    simp
  have hbehind : every r.behindMark (.line body true :: ts) =
      ⟨.line, String.ofList (normalize true (Text.unlines [body])), r.line⟩ :: every passed ts := by
    rw [every, halone, Reader.pass_behindMark]
    exact congrArg _ (every_behindMark hpassed ts)
  have hfront : every r (.line body true :: ts) =
      ⟨.line,
        String.ofList (normalize true
          (Text.unlines (body :: Trivia.lineBodies (Trivia.run ts).1))),
        r.line + (Trivia.lineBodies (Trivia.run ts).1).length⟩ ::
      every ((Trivia.run ts).1.foldl Reader.pass passed) (Trivia.run ts).2 := by
    rw [every, absorbed, if_pos (Reader.atIndent_of_all hindent)]
  rw [hbehind, hfront]
  by_cases hrun : (Trivia.run ts).1 = []
  · -- no line continues the comment, so nothing is absorbed either way
    have hrest : (Trivia.run ts).2 = ts := by
      have happend := Trivia.run_append ts
      rwa [hrun] at happend
    rw [hrun, hrest]
    exact iff_of_true rfl fun hsplits => hsplits.2.1 hrun
  · have hbodies := Trivia.lineBodies_run_ne_nil hrun
    have hnewline : ∀ l ∈ body :: Trivia.lineBodies (Trivia.run ts).1, '\n' ∉ l :=
      List.forall_mem_cons.mpr ⟨hbody, hgap.newline_not_mem_run⟩
    have hlength := List.length_pos_iff.mpr hbodies
    have hlast : passed.line + ((Trivia.lineBodies (Trivia.run ts).1).length - 1) =
        r.line + (Trivia.lineBodies (Trivia.run ts).1).length := by omega
    have hpassedAhead := Reader.ahead_pass_of_eq_append hahead
    rw [every_of_run (Reader.atIndent_pass_line hahead) hpassedAhead hrun, hlast]
    by_cases hlater : every ((Trivia.run ts).1.foldl Reader.pass passed) (Trivia.run ts).2 = []
    · -- the run is the last comment, with or without its first line
      have htext : normalize true (Text.unlines (body :: Trivia.lineBodies (Trivia.run ts).1)) =
          normalize true (Text.unlines (Trivia.lineBodies (Trivia.run ts).1)) ↔
            cleanLine true body = [] := normalize_unlines_cons_eq_iff hbodies hnewline
      have hcomments := every_eq_nil_iff.mp hlater
      have hsplits : SplitsRun (.line body true :: ts) ↔ cleanLine true body ≠ [] :=
        ⟨And.left, fun hclean => ⟨hclean, hrun, hcomments⟩⟩
      rw [hlater, hsplits, not_not, ← htext, eq_comm]
      simp [String.ofList_inj]
    · -- a later comment is the last one in both
      refine iff_of_true ?_ fun hsplits => hlater (every_eq_nil_iff.mpr hsplits.2.2)
      rw [List.getLast?_cons_cons, List.getLast?_cons_of_ne_nil hlater,
        List.getLast?_cons_of_ne_nil hlater]

/-- A mark changes the last comment of a gap exactly if the comments split. -/
theorem getLast?_every_behindMark_eq_iff (hgap : Trivia.IsGap ts rest)
    (hahead : r.ahead = ts.flatMap Trivia.chars ++ rest) (hindent : r.behind.all Text.isIndent) :
    (every r.behindMark ts).getLast? = (every r ts).getLast? ↔ ¬ SplitsRun ts := by
  induction ts generalizing r with
  | nil => simp [every, SplitsRun]
  | cons t ts ih =>
    obtain ⟨hfits, hlater⟩ := hgap
    have hcons : r.ahead = t.chars ++ (ts.flatMap Trivia.chars ++ rest) := by simpa using hahead
    cases t with
    | blank c =>
      by_cases hc : Text.isIndent c
      · have hbehind : ((r.pass (.blank c)).behind).all Text.isIndent := by
          rw [Reader.behind_pass hcons]
          simp [Trivia.chars, hc, hindent]
        rw [every, every, Reader.pass_behindMark,
          ih hlater (Reader.ahead_pass_of_eq_append hcons) hbehind]
        simp [SplitsRun, hc]
      · have hpassed : (r.pass (.blank c)).Underway :=
          Reader.underway_pass (c := c) hcons (by simp [Trivia.chars]) (by simpa using hc)
        rw [every, every, Reader.pass_behindMark, every_behindMark hpassed]
        simp [SplitsRun, hc]
    | block body =>
      have hpassed : (r.pass (.block body)).Underway :=
        Reader.underway_pass (c := '/') hcons (by simp [Trivia.chars]) (by decide)
      rw [every, every, Reader.pass_behindMark, every_behindMark hpassed]
      simp [SplitsRun]
    | line body ended =>
      cases ended with
      | true => exact getLast?_every_behindMark_line hfits hlater hcons hindent
      | false =>
        -- the end of the text ends the comment, so nothing lies below it
        obtain rfl : ts = [] := by
          cases ts with
          | nil => rfl
          | cons u us => exact absurd hfits.2 (by simp [u.chars_ne_nil])
        have hnone : ∀ r : Reader, absorbed r [] = ([], []) := fun r => by
          simp [absorbed, Trivia.run]
        rw [every, every, hnone, hnone]
        simp [every, SplitsRun]

end Doc

end SchemaLex
