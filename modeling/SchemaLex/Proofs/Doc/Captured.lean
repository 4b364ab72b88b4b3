-- SUMMARY: What a session captures in a gap is the sequence of documentation comments there.
import SchemaLex.Proofs.Doc.Sequence

/-!
# Captured Comments and the Sequence

Reading a gap forwards, as a session does, brings the documentation comments that the parts of the
text tell, one by one: `captured_eq_docs`. Where every comment is documentation a reader takes a
whole run of `//` comments at once, and the sequence has one element for it.
-/

namespace SchemaLex

/-- A run is a run by itself. -/
theorem Trivia.run_run_front (ts : List Trivia) : (run (run ts).1).1 = (run ts).1 := by
  induction ts with
  | nil => rfl
  | cons t ts ih =>
    cases t with
    | blank c =>
      rw [run]
      split
      · next h => rw [run, ih, if_pos h]
      · rfl
    | line body ended => rw [run, run, ih]
    | block body => rfl

/-- The last of some documentation comments is the latest found, or the latest found is the one that
    lies further back. -/
inductive Doc.LatestIn (options : Options) (back : List Part) (docs : List Doc)
    (found : Option (Doc × List Part)) : Prop where
  | older (hdocs : docs = []) (hfound : found = Part.latest options back)
  | newer {doc : Doc} {upTo : List Part} (hdocs : docs.getLast? = some doc)
    (hfound : found = some (doc, upTo)) (hlength : back.length < upTo.length)

namespace Part

variable {options : Options} {back ps : List Part}

/-- A `//` comment comes next exactly where a run starts. -/
theorem lineBelow_map_trivia (ts : List Trivia) :
    lineBelow (ts.map trivia) = !(Trivia.run ts).1.isEmpty := by
  induction ts with
  | nil => rfl
  | cons t ts ih =>
    cases t with
    | blank c =>
      rw [List.map_cons, lineBelow, ih, Trivia.run]
      cases Text.isIndent c <;> cases (Trivia.run ts).1 <;> rfl
    | _ => rfl

theorem docs_leading_append (marked : Bool) :
    docs options back (leading marked ++ ps) =
      docs options ((leading marked).reverse ++ back) ps := by
  cases marked <;> rfl

theorem docs_append_singleton {p : Part} (h : ∀ t, p ≠ trivia t) :
    docs options back (ps ++ [p]) = docs options back ps := by
  cases p with
  | trivia t => exact absurd rfl (h t)
  | _ =>
    rw [docs_append (.inr rfl)]
    simp [docs]

/-- The latest comment behind some parts is the last of theirs, if they have one. -/
theorem latestIn_docs : Doc.LatestIn options back ((docs options back ps).map (·.1))
    (latest options (ps.reverse ++ back)) := by
  have hlast : (docs options back ps).getLast?.or (latest options back) =
      latest options (ps.reverse ++ back) := getLast?_docs_or
  cases hdocs : (docs options back ps).getLast? with
  | none =>
    rw [hdocs] at hlast
    rw [List.getLast?_eq_none_iff.mp hdocs]
    exact .older rfl hlast.symm
  | some d =>
    rw [hdocs] at hlast
    refine .newer ?_ hlast.symm (length_lt_of_mem_docs (List.mem_of_getLast? hdocs))
    rw [List.getLast?_map, hdocs]
    rfl

end Part

namespace Doc

variable {options : Options} {r : Reader} {back : List Part} {ts : List Trivia} {rest : List Char}

theorem marked_eq_docs (hmarked : options.everyComment = false)
    (hr : r.Behind options.countLiteralLines back)
    (hahead : r.ahead = ts.flatMap Trivia.chars ++ rest) :
    marked r ts = (Part.docs options back (ts.map .trivia)).map (·.1) := by
  induction ts generalizing r back with
  | nil => rfl
  | cons t ts ih =>
    rw [List.flatMap_cons, List.append_assoc] at hahead
    have hcontinues : Part.continues options back t (ts.map .trivia) = false := by
      cases t <;> simp [Part.continues, hmarked]
    have hlater := ih (hr.pass hahead) (Reader.ahead_pass_of_eq_append hahead)
    rw [marked, ← docEnding?_of_marked hmarked hr hahead, hlater, List.map_cons, Part.docs,
      hcontinues, if_neg Bool.false_ne_true, List.map_append]
    cases Part.docEnding? options back t <;> rfl

/-- A run in front of a reader is one element of the sequence, the latest behind the run. -/
theorem docs_run (hevery : options.everyComment)
    (hr : r.Behind options.countLiteralLines back) (hindent : r.atIndent)
    (hahead : r.ahead = ts.flatMap Trivia.chars ++ rest) (hgap : Trivia.IsGap ts rest)
    (hrun : (Trivia.run ts).1 ≠ []) :
    Part.docs options back ((Trivia.run ts).1.map .trivia) =
      (Part.latest options (Part.behindGap back (Trivia.run ts).1)).toList := by
  induction ts generalizing r back with
  | nil => exact absurd rfl hrun
  | cons t ts ih =>
    have hfront : r.ahead = t.chars ++ (ts.flatMap Trivia.chars ++ rest) := by simpa using hahead
    have hpassed := hr.pass hfront
    have hahead' := Reader.ahead_pass_of_eq_append hfront
    cases t with
    | blank c =>
      obtain ⟨hc, hbelow, hcons⟩ := Trivia.run_blank_of_ne_nil hrun
      have hnext := Reader.atIndent_pass_indent hc hahead hindent
      rw [hcons, Part.behindGap_cons]
      exact ih hpassed hnext hahead' hgap.2 hbelow
    | line body ended =>
      have hback := hr.atIndent.trans hindent
      have hcontinues : Part.continues options back (.line body ended)
          ((Trivia.run ts).1.map .trivia) = !(Trivia.run ts).1.isEmpty := by
        simp [Part.continues, hevery, hback, Part.lineBelow_map_trivia, Trivia.run_run_front]
      rw [Trivia.run, List.map_cons, Part.docs, hcontinues, Part.behindGap_cons]
      by_cases hbelow : (Trivia.run ts).1 = []
      · rw [hbelow]
        simp [Part.docs, Part.docEnding?, Part.docBody?, Part.latest, hevery]
      · obtain rfl : ended = true := by
          refine Trivia.IsGap.ended hgap ?_
          rintro rfl
          exact hbelow rfl
        rw [if_pos (by simpa using hbelow)]
        exact ih hpassed (Reader.atIndent_pass_line hfront) hahead' hgap.2 hbelow
    | block body => exact absurd rfl hrun

/-- The condition keeps the run in front of the place apart from the `//` comments above it. -/
theorem every_eq_docs (hevery : options.everyComment)
    (hr : r.Behind options.countLiteralLines back)
    (hahead : r.ahead = ts.flatMap Trivia.chars ++ rest) (hgap : Trivia.IsGap ts rest)
    (happart : Part.linesAbove back = [] ∨ (Trivia.run ts).1 = []) :
    every r ts = (Part.docs options back (ts.map .trivia)).map (·.1) := by
  -- A comment may take in a run of items, so the induction is on how many are left.
  induction hlength : ts.length using Nat.strongRecOn generalizing r back ts with
  | ind n ih =>
    cases ts with
    | nil =>
      rw [every]
      rfl
    | cons t ts =>
      have hfront : r.ahead = t.chars ++ (ts.flatMap Trivia.chars ++ rest) := by simpa using hahead
      have hpassed := hr.pass hfront
      have hahead' := Reader.ahead_pass_of_eq_append hfront
      have hshorter : ts.length < n := by simp [← hlength]
      cases t with
      | blank c =>
        have happart' : Part.linesAbove (.trivia (.blank c) :: back) = [] ∨
            (Trivia.run ts).1 = [] := by
          by_cases hc : Text.isIndent c
          · by_cases hbelow : (Trivia.run ts).1 = []
            · exact .inr hbelow
            · refine .inl ?_
              simpa [Part.linesAbove, Trivia.run, hc, hbelow] using happart
          · exact .inl (by simp [Part.linesAbove, hc])
        rw [every, ih _ hshorter hpassed hahead' hgap.2 happart' rfl]
        rfl
      | block body =>
        have hdoc : Part.docEnding? options back (.block body) =
            some ⟨.block, String.ofList (normalize true body), (r.pass (.block body)).line⟩ := by
          simp [Part.docEnding?, Part.docBody?, hevery, hpassed.line]
        rw [every, ih _ hshorter hpassed hahead' hgap.2 (.inl rfl) rfl, List.map_cons, Part.docs,
          hdoc]
        rfl
      | line body ended =>
        have habove : Part.linesAbove back = [] := by simpa [Trivia.run] using happart
        by_cases hindent : r.atIndent
        · have hrun : (Trivia.run (.line body ended :: ts)).1 ≠ [] := List.cons_ne_nil _ _
          have hsplit := Trivia.run_append (.line body ended :: ts)
          have hshorter' : (Trivia.run (.line body ended :: ts)).2.length < n :=
            Nat.lt_of_le_of_lt (Trivia.length_run_le ts) hshorter
          have hlatest := latest_of_run hevery hr hindent hahead hgap hrun
          have hdocs := docs_run hevery hr hindent hahead hgap hrun
          have hcut : Part.lineBelow ((Trivia.run (.line body ended :: ts)).2.map .trivia) =
              false := by
            rw [Part.lineBelow_map_trivia, Trivia.run_run]
            rfl
          rw [hlatest, habove] at hdocs
          rw [every_of_run hindent hahead hrun]
          rw [← hsplit, List.flatMap_append, List.append_assoc] at hahead
          rw [← hsplit] at hgap
          have hlater := ih _ hshorter' (hr.foldl_pass hahead)
            (Reader.ahead_foldl_pass _ _ _ hahead) hgap.of_append (.inr (Trivia.run_run _)) rfl
          rw [← congrArg (List.map Part.trivia) hsplit, List.map_append,
            Part.docs_append (.inr hcut), hdocs, hlater]
          rfl
        · have hback : Part.atIndent back = false := by rw [hr.atIndent]; simpa using hindent
          have hdoc : Part.docEnding? options back (.line body ended) =
              some ⟨.line, String.ofList (normalize true body), r.line⟩ := by
            simp [Part.docEnding?, Part.docBody?, hevery, hback, hr.line]
          have hcontinues : Part.continues options back (.line body ended) (ts.map .trivia) =
              false := by
            simp [Part.continues, hback]
          have hlater := ih _ hshorter hpassed hahead' hgap.2
            (.inl (by simp [Part.linesAbove, hback])) rfl
          rw [every, absorbed, if_neg hindent, List.map_cons, Part.docs, hcontinues, hdoc]
          simp [Trivia.lineBodies, hlater]

/-- The documentation that a session captures in a gap is the sequence of the parts there. -/
theorem captured_eq_docs (hr : r.Behind options.countLiteralLines back)
    (hahead : r.ahead = ts.flatMap Trivia.chars ++ rest) (hgap : Trivia.IsGap ts rest)
    (hback : Part.linesAbove back = []) :
    captured options.everyComment r ts = (Part.docs options back (ts.map .trivia)).map (·.1) := by
  unfold captured
  cases hevery : options.everyComment with
  | false => exact marked_eq_docs hevery hr hahead
  | true => exact every_eq_docs hevery hr hahead hgap (.inl hback)

end Doc

end SchemaLex
