-- SUMMARY: Where the comments of a gap come in two parts that have nothing to do with each other.
import SchemaLex.Proofs.Doc.Marked
import SchemaLex.Proofs.Doc.Run

/-!
# Gaps in Two Parts

The documentation of a gap can be told part by part, except that a line comment takes in those on
the lines below it. It goes on from the first part to the second only if the first ends with a line
comment that has its line for itself, and indentation behind it at most, and the second starts with
a line comment: `captured_append`.
-/

namespace SchemaLex

/-- The item is indentation. -/
def Trivia.IsIndent : Trivia → Prop
  | blank c => Text.isIndent c
  | _ => False

/-- The items end with a line comment that has its line for itself, and indentation behind it at
    most. -/
def Reader.LineAbove (r : Reader) (ts : List Trivia) : Prop :=
  ∃ front body ended indent, ts = front ++ .line body ended :: indent ∧
    (∀ t ∈ indent, t.IsIndent) ∧ (front.foldl Reader.pass r).atIndent

namespace Trivia

variable {ts us : List Trivia} {c : Char}

theorem run_blank_of_nil (h : Text.isIndent c → (run ts).1 = []) :
    run (blank c :: ts) = ([], blank c :: ts) := by
  rw [run, if_neg]
  intro hgoes
  simp only [Bool.and_eq_true, Bool.not_eq_true', List.isEmpty_eq_false_iff] at hgoes
  exact hgoes.2 (h hgoes.1)

theorem run_blank_of_isIndent (hc : Text.isIndent c) (h : (run ts).1 ≠ []) :
    run (blank c :: ts) = (blank c :: (run ts).1, (run ts).2) := by
  rw [run, if_pos]
  simpa [hc] using h

theorem run_of_fst_eq_nil (h : (run ts).1 = []) : run ts = ([], ts) := by
  have hall := run_append ts
  rw [h, List.nil_append] at hall
  exact Prod.ext h hall

/-- Items behind a gap do not change the run in front of it, unless they start with a run as well
    and nothing but indentation keeps the two apart. -/
theorem run_append_eq (h : (run us).1 = [] ∨ ¬ ∀ t ∈ (run ts).2, t.IsIndent) :
    run (ts ++ us) = ((run ts).1, (run ts).2 ++ us) := by
  induction ts with
  | nil => exact run_of_fst_eq_nil (h.resolve_right fun hleft => hleft (List.forall_mem_nil _))
  | cons t ts ih =>
    cases t with
    | line body ended => rw [List.cons_append, run, ih h, run]
    | block body => rfl
    | blank c =>
      rw [List.cons_append]
      by_cases hgoes : Text.isIndent c ∧ (run ts).1 ≠ []
      · obtain ⟨hc, hbelow⟩ := hgoes
        rw [run_blank_of_isIndent hc hbelow] at h ⊢
        have hlonger := ih h
        rw [run_blank_of_isIndent hc (by rwa [hlonger]), hlonger]
      · have hends : Text.isIndent c → (run ts).1 = [] := fun hc => by
          by_contra hbelow
          exact hgoes ⟨hc, hbelow⟩
        rw [run_blank_of_nil hends] at h ⊢
        refine run_blank_of_nil fun hc => ?_
        have hnil := run_of_fst_eq_nil (hends hc)
        rw [hnil] at ih
        rw [ih (h.imp_right fun hleft hall => hleft (List.forall_mem_cons.mpr ⟨hc, hall⟩))]

/-- The last item of a run is a line comment. -/
theorem exists_line_of_run (h : (run ts).1 ≠ []) :
    ∃ front body ended, (run ts).1 = front ++ [line body ended] := by
  induction ts with
  | nil => exact absurd rfl h
  | cons t ts ih =>
    cases t with
    | blank c =>
      obtain ⟨-, hbelow, hrun⟩ := run_blank_of_ne_nil h
      obtain ⟨front, body, ended, heq⟩ := ih hbelow
      exact ⟨blank c :: front, body, ended, by rw [hrun, heq]; rfl⟩
    | line body ended =>
      by_cases hbelow : (run ts).1 = []
      · exact ⟨[], body, ended, by rw [run, hbelow]; rfl⟩
      · obtain ⟨front, body', ended', heq⟩ := ih hbelow
        exact ⟨line body ended :: front, body', ended', by rw [run, heq]; rfl⟩
    | block body => exact absurd rfl h

end Trivia

namespace Reader

variable {r : Reader} {ts front others : List Trivia} {t : Trivia} {rest : List Char}

/-- In front of each item of a run the reader is at the start of a line, if it is so in front of
    the first. -/
theorem atIndent_foldl_run (hindent : r.atIndent)
    (hahead : r.ahead = ts.flatMap Trivia.chars ++ rest) (hgap : Trivia.IsGap ts rest)
    (hrun : (Trivia.run ts).1 = front ++ t :: others) : (front.foldl pass r).atIndent := by
  induction front generalizing r ts with
  | nil => exact hindent
  | cons first front ih =>
    cases ts with
    | nil => cases hrun
    | cons u us =>
      rw [List.flatMap_cons, List.append_assoc] at hahead
      have hpassed := ahead_pass_of_eq_append hahead
      cases u with
      | blank c =>
        have hne : (Trivia.run (.blank c :: us)).1 ≠ [] := by simp [hrun]
        obtain ⟨hc, -, hcons⟩ := Trivia.run_blank_of_ne_nil hne
        rw [hcons] at hrun
        obtain ⟨rfl, hlater⟩ := List.cons.inj hrun
        exact ih (atIndent_pass_indent hc hahead hindent) hpassed hgap.2 hlater
      | line body ended =>
        obtain ⟨rfl, hlater⟩ := List.cons.inj hrun
        have hne : us ≠ [] := by
          rintro rfl
          simp [Trivia.run] at hlater
        obtain rfl := hgap.ended hne
        exact ih (atIndent_pass_line hahead) hpassed hgap.2 hlater
      | block body => cases hrun

theorem LineAbove.append_left (us : List Trivia) (h : (us.foldl pass r).LineAbove ts) :
    r.LineAbove (us ++ ts) := by
  obtain ⟨front, body, ended, indent, rfl, hall, hindent⟩ := h
  exact ⟨us ++ front, body, ended, indent, (List.append_assoc _ _ _).symm, hall,
    by rwa [List.foldl_append]⟩

theorem lineAbove_concat_iff (front : List Trivia) {body : List Char} {ended : Bool} :
    r.LineAbove (front ++ [.line body ended]) ↔ (front.foldl pass r).atIndent := by
  constructor
  · rintro ⟨front', body', ended', indent, heq, hall, hindent⟩
    -- The last item is the line comment, so nothing stands behind it.
    rcases List.eq_nil_or_concat indent with rfl | ⟨indent, t, rfl⟩
    · obtain ⟨rfl, -⟩ := List.append_inj' heq rfl
      exact hindent
    · rw [List.concat_eq_append] at heq hall
      have hlast := congrArg List.getLast? heq
      rw [← List.cons_append, ← List.append_assoc, List.getLast?_concat,
        List.getLast?_concat] at hlast
      obtain rfl := Option.some.inj hlast
      exact False.elim (hall (.line body ended) (by simp))
  · intro hindent
    exact ⟨front, body, ended, [], rfl, List.forall_mem_nil _, hindent⟩

/-- A run at the start of a line that only indentation follows is a line comment above. -/
theorem lineAbove_of_run (hindent : r.atIndent)
    (hahead : r.ahead = ts.flatMap Trivia.chars ++ rest) (hgap : Trivia.IsGap ts rest)
    (hne : (Trivia.run ts).1 ≠ []) (hleft : ∀ t ∈ (Trivia.run ts).2, t.IsIndent) :
    r.LineAbove ts := by
  obtain ⟨front, body, ended, hrun⟩ := Trivia.exists_line_of_run hne
  refine ⟨front, body, ended, (Trivia.run ts).2, ?_, hleft,
    atIndent_foldl_run hindent hahead hgap hrun⟩
  rw [← List.singleton_append, ← List.append_assoc, ← hrun, Trivia.run_append]

end Reader

namespace Doc

variable {r : Reader} {ts us : List Trivia} {rest : List Char}

/-- Where every comment is documentation, a gap can be cut in front of what is no run, and in front
    of a run that no line comment directly above takes in. -/
theorem every_append (hahead : r.ahead = ts.flatMap Trivia.chars ++ rest)
    (hgap : Trivia.IsGap ts rest) (hcut : (Trivia.run us).1 = [] ∨ ¬ r.LineAbove ts) :
    every r (ts ++ us) = every r ts ++ every (ts.foldl Reader.pass r) us := by
  fun_induction every r ts with
  | case1 => rfl
  | case2 r c ts ih =>
    have hpassed := Reader.ahead_pass_of_eq_append (t := .blank c) hahead
    rw [List.cons_append, every,
      ih hpassed hgap.2 (hcut.imp_right (mt (Reader.LineAbove.append_left [.blank c])))]
    rfl
  | case3 r body ts passed ih =>
    have hpassed := Reader.ahead_pass_of_eq_append (t := .block body) (by simpa using hahead)
    rw [List.cons_append, every,
      ih hpassed hgap.2 (hcut.imp_right (mt (Reader.LineAbove.append_left [.block body])))]
    rfl
  | case4 r body ended ts hlength below bodies text ih =>
    have hitems : .line body ended :: ts = (.line body ended :: below.1) ++ below.2 :=
      congrArg _ (absorbed_append r ts).symm
    have hpassed : (below.1.foldl Reader.pass (r.pass (.line body ended))).ahead =
        below.2.flatMap Trivia.chars ++ rest := by
      refine Reader.ahead_foldl_pass (.line body ended :: below.1) r _ ?_
      rw [hahead, hitems, List.flatMap_append, List.append_assoc]
    have hbelow : absorbed r (ts ++ us) = (below.1, below.2 ++ us) := by
      by_cases hindent : r.atIndent
      · have hrun : below = Trivia.run ts := if_pos hindent
        rw [absorbed, if_pos hindent, hrun]
        refine Trivia.run_append_eq (hcut.imp_right (mt fun hleft => ?_))
        exact Reader.lineAbove_of_run hindent hahead hgap (List.cons_ne_nil _ _) hleft
      · have hnone : below = ([], ts) := if_neg hindent
        rw [absorbed, if_neg hindent, hnone]
    rw [hitems] at hgap hcut
    have hcut' := hcut.imp_right (mt (Reader.LineAbove.append_left (.line body ended :: below.1)))
    rw [List.cons_append, every, hbelow, ih hpassed hgap.of_append hcut', hitems,
      List.foldl_append]
    rfl

/-- The documentation of a gap in two parts is that of the parts. -/
theorem captured_append {everyComment : Bool}
    (hahead : r.ahead = ts.flatMap Trivia.chars ++ rest) (hgap : Trivia.IsGap ts rest)
    (hcut : everyComment → (Trivia.run us).1 = [] ∨ ¬ r.LineAbove ts) :
    captured everyComment r (ts ++ us) =
      captured everyComment r ts ++ captured everyComment (ts.foldl Reader.pass r) us := by
  cases everyComment with
  | true => exact every_append hahead hgap (hcut rfl)
  | false => exact marked_append r ts us

end Doc

end SchemaLex
