-- SUMMARY: The documentation comments of a text, one after the other.
import SchemaLex.Proofs.Doc.Latest

/-!
# The Sequence of Documentation Comments

All documentation comments of some parts of a text, in order and each with the place behind it:
`Part.docs`. The last of them is the latest behind those parts (`getLast?_docs_or`), and the
sequence can be cut wherever no run of `//` comments goes on (`docs_append`).
-/

namespace SchemaLex.Part

variable {options : Options} {back ps qs : List Part} {t : Trivia} {d : Doc × List Part}

/-- A `//` comment comes next, behind indentation at most. -/
def lineBelow : List Part → Bool
  | trivia (.blank c) :: ahead => Text.isIndent c && lineBelow ahead
  | trivia (.line _ _) :: _ => true
  | _ => false

/-- The item is a `//` comment that is one comment with the `//` comment below it. -/
def continues (options : Options) (back : List Part) : Trivia → List Part → Bool
  | .line _ _, ahead => options.everyComment && atIndent back && lineBelow ahead
  | _, _ => false

/-- The documentation comments that end within the parts in front of a place, in order, each with
    the parts up to its end, the latest first. -/
def docs (options : Options) : List Part → List Part → List (Doc × List Part)
  | _, [] => []
  | back, trivia t :: ahead =>
    let later := docs options (trivia t :: back) ahead
    if continues options back t ahead then later
    else ((docEnding? options back t).map fun doc => (doc, trivia t :: back)).toList ++ later
  | back, p :: ahead => docs options (p :: back) ahead

/-! ## The Last Comment -/

/-- A run of `//` comments makes up a comment at its end. -/
theorem docs_ne_nil_of_lineBelow (hevery : options.everyComment) (h : lineBelow ps) :
    docs options back ps ≠ [] := by
  induction ps generalizing back with
  | nil => cases h
  | cons p ps ih =>
    cases p with
    | trivia t =>
      cases t with
      | blank c =>
        simp only [lineBelow, Bool.and_eq_true] at h
        simpa [docs, continues, docEnding?] using ih h.2
      | line body ended =>
        rw [docs]
        by_cases hcontinues : continues options back (.line body ended) ps
        · have hbelow : lineBelow ps := by
            simp only [continues, Bool.and_eq_true] at hcontinues
            exact hcontinues.2
          rw [if_pos hcontinues]
          exact ih hbelow
        · rw [if_neg hcontinues]
          simp [docEnding?, docBody?, hevery]
      | block body => cases h
    | _ => cases h

/-- The latest comment behind the parts is the last of theirs, or the latest in front of them. -/
theorem getLast?_docs_or :
    (docs options back ps).getLast?.or (latest options back) =
      latest options (ps.reverse ++ back) := by
  induction ps generalizing back with
  | nil => rfl
  | cons p ps ih =>
    rw [List.reverse_cons, List.append_assoc, List.singleton_append, ← ih]
    cases p with
    | trivia t =>
      rw [docs]
      by_cases hcontinues : continues options back t ps
      · -- The comment that the item is part of ends further ahead.
        have hlater : docs options (trivia t :: back) ps ≠ [] := by
          cases t with
          | line body ended =>
            simp only [continues, Bool.and_eq_true] at hcontinues
            exact docs_ne_nil_of_lineBelow hcontinues.1.1 hcontinues.2
          | _ => cases hcontinues
        rw [if_pos hcontinues, List.getLast?_eq_some_getLast hlater]
        rfl
      · rw [if_neg hcontinues, List.getLast?_append, Option.or_assoc, latest]
        cases docEnding? options back t <;> rfl
    | _ => rfl

/-- The latest comment behind the parts is one of theirs, or they have none. -/
theorem mem_docs_or_of_latest (h : latest options (ps.reverse ++ back) = some d) :
    d ∈ docs options back ps ∨ latest options back = some d := by
  rw [← getLast?_docs_or] at h
  cases hlast : (docs options back ps).getLast? with
  | some found =>
    rw [hlast] at h
    obtain rfl := Option.some.inj h
    exact .inl (List.mem_of_getLast? hlast)
  | none =>
    rw [hlast] at h
    exact .inr h

/-! ## Where the Sequence Can Be Cut -/

/-- What is one comment with a `//` comment further back is told by the parts up to a place where no
    such comment stands directly above or below. -/
theorem lineBelow_append (hback : linesAbove back ≠ [])
    (hcut : linesAbove (ps.reverse ++ back) = [] ∨ lineBelow qs = false) :
    lineBelow (ps ++ qs) = lineBelow ps := by
  induction ps generalizing back with
  | nil =>
    rcases hcut with hnil | hbelow
    · exact absurd hnil hback
    · exact hbelow
  | cons p ps ih =>
    rw [List.reverse_cons, List.append_assoc, List.singleton_append] at hcut
    cases p with
    | trivia t =>
      cases t with
      | blank c =>
        by_cases hc : Text.isIndent c
        · have hback' : linesAbove (trivia (.blank c) :: back) ≠ [] := by
            rwa [linesAbove, if_pos hc]
          simp [lineBelow, ih hback' hcut]
        · simp [lineBelow, hc]
      | _ => rfl
    | _ => rfl

/-- The comments of some parts and of those behind them, unless a comment goes on in between. -/
theorem docs_append (hcut : linesAbove (ps.reverse ++ back) = [] ∨ lineBelow qs = false) :
    docs options back (ps ++ qs) =
      docs options back ps ++ docs options (ps.reverse ++ back) qs := by
  induction ps generalizing back with
  | nil => rfl
  | cons p ps ih =>
    rw [List.reverse_cons, List.append_assoc, List.singleton_append] at hcut ⊢
    cases p with
    | trivia t =>
      have hcontinues : continues options back t (ps ++ qs) = continues options back t ps := by
        cases t with
        | line body ended =>
          by_cases hindent : atIndent back
          · have habove : linesAbove (trivia (.line body ended) :: back) ≠ [] := by
              simp [linesAbove, hindent]
            rw [continues, lineBelow_append habove hcut, continues]
          · simp [continues, hindent]
        | _ => rfl
      simp only [List.cons_append, docs, hcontinues, ih hcut]
      split <;> simp
    | _ => exact ih hcut

/-! ## Occurrences -/

/-- The item ends the documentation comment, which does not go on ahead of it. -/
structure EndsDoc (options : Options) (back : List Part) (t : Trivia) (ahead : List Part)
    (d : Doc × List Part) : Prop where
  doc : docEnding? options back t = some d.1
  upTo : d.2 = trivia t :: back
  ends : continues options back t ahead = false

theorem mem_docs_cons_iff {p : Part} :
    d ∈ docs options back (p :: ps) ↔
      (∃ t, p = trivia t ∧ EndsDoc options back t ps d) ∨ d ∈ docs options (p :: back) ps := by
  cases p with
  | trivia t =>
    have hhere : (∃ u, trivia t = trivia u ∧ EndsDoc options back u ps d) ↔
        EndsDoc options back t ps d := by
      constructor
      · rintro ⟨u, heq, hends⟩
        obtain rfl := Part.trivia.inj heq
        exact hends
      · exact fun hends => ⟨t, rfl, hends⟩
    rw [docs, hhere]
    by_cases hcontinues : continues options back t ps
    · rw [if_pos hcontinues]
      refine (or_iff_right fun hends => ?_).symm
      rw [hends.ends] at hcontinues
      cases hcontinues
    · rw [if_neg hcontinues, List.mem_append, Option.mem_toList, Option.map_eq_some_iff]
      refine or_congr_left ⟨?_, fun hends => ⟨d.1, hends.doc, Prod.ext rfl hends.upTo.symm⟩⟩
      rintro ⟨doc, hdoc, rfl⟩
      exact ⟨hdoc, rfl, by simpa using hcontinues⟩
  | _ =>
    refine (or_iff_right ?_).symm
    rintro ⟨t, heq, -⟩
    cases heq

/-- The sequence has one element for each item that ends a documentation comment, and no other. -/
theorem mem_docs_iff :
    d ∈ docs options back ps ↔
      ∃ front t ahead, ps = front ++ trivia t :: ahead ∧
        EndsDoc options (front.reverse ++ back) t ahead d := by
  induction ps generalizing back with
  | nil => simp [docs]
  | cons p ps ih =>
    rw [mem_docs_cons_iff, ih]
    constructor
    · rintro (⟨t, rfl, hends⟩ | ⟨front, t, ahead, rfl, hends⟩)
      · exact ⟨[], t, ps, rfl, hends⟩
      · exact ⟨p :: front, t, ahead, rfl, by simpa using hends⟩
    · rintro ⟨front, t, ahead, heq, hends⟩
      cases front with
      | nil =>
        obtain ⟨rfl, rfl⟩ := List.cons.inj heq
        exact .inl ⟨t, rfl, hends⟩
      | cons q front =>
        obtain ⟨rfl, rfl⟩ := List.cons.inj heq
        exact .inr ⟨front, t, ahead, rfl, by simpa using hends⟩

theorem length_lt_of_mem_docs (h : d ∈ docs options back ps) : back.length < d.2.length := by
  obtain ⟨front, t, ahead, -, hends⟩ := mem_docs_iff.mp h
  rw [hends.upTo]
  simp only [List.length_cons, List.length_append]
  omega

/-- Each comment of the sequence ends further ahead than those before it. -/
theorem pairwise_docs : (docs options back ps).Pairwise fun d e => d.2.length < e.2.length := by
  induction ps generalizing back with
  | nil => exact .nil
  | cons p ps ih =>
    cases p with
    | trivia t =>
      rw [docs]
      by_cases hcontinues : continues options back t ps
      · rw [if_pos hcontinues]
        exact ih
      · rw [if_neg hcontinues]
        cases docEnding? options back t with
        | none => exact ih
        | some doc => exact .cons (fun e he => length_lt_of_mem_docs he) ih
    | _ => exact ih

end SchemaLex.Part
