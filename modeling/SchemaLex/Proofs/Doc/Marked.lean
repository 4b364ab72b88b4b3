-- SUMMARY: Where the marker decides: which items are documentation and on which lines.
import SchemaLex.Doc.Captured
import SchemaLex.Proofs.Reader

/-!
# Marked Comments

An item is documentation exactly if it carries the marker, whatever stands around it. The comments
that a list of items brings end on lines at or below the one where the list starts.
-/

namespace SchemaLex

/-- The comment has a third slash or a second star. -/
def Trivia.IsMarked : Trivia → Prop
  | blank _ => False
  | line body _ => body.head? = some '/'
  | block body => body.head? = some '*'

instance : DecidablePred Trivia.IsMarked
  | .blank _ => inferInstanceAs (Decidable False)
  | .line body _ => inferInstanceAs (Decidable (body.head? = some '/'))
  | .block body => inferInstanceAs (Decidable (body.head? = some '*'))

namespace Doc

theorem isSome_ofMarked?_iff {r : Reader} {t : Trivia} : (ofMarked? r t).isSome ↔ t.IsMarked := by
  unfold ofMarked? Trivia.IsMarked
  cases t with
  | blank c => simp
  | line body ended =>
    cases body with
    | nil => simp
    | cons c cs =>
      by_cases hc : c = '/'
      · simp [hc]
      · simp [hc]
  | block body =>
    cases body with
    | nil => simp
    | cons c cs =>
      by_cases hc : c = '*'
      · simp [hc]
      · simp [hc]

theorem line_le_of_ofMarked? {r : Reader} {t : Trivia} {d : Doc} (h : ofMarked? r t = some d) :
    r.line ≤ d.line := by
  unfold ofMarked? at h
  split at h
  · obtain rfl := Option.some.inj h
    exact Nat.le_refl _
  · obtain rfl := Option.some.inj h
    exact Reader.line_le_line_pass r _
  · cases h

theorem marked_append (r : Reader) (ts us : List Trivia) :
    marked r (ts ++ us) = marked r ts ++ marked (ts.foldl Reader.pass r) us := by
  induction ts generalizing r with
  | nil => rfl
  | cons t ts ih => simp only [List.cons_append, marked, List.foldl_cons, ih, List.append_assoc]

theorem marked_blanks (r : Reader) (cs : List Char) : marked r (cs.map .blank) = [] := by
  induction cs generalizing r with
  | nil => rfl
  | cons c cs ih =>
    rw [List.map_cons, marked, ih]
    rfl

theorem marked_eq_nil_iff {r : Reader} {ts : List Trivia} :
    marked r ts = [] ↔ ∀ t ∈ ts, ¬ t.IsMarked := by
  induction ts generalizing r with
  | nil => simp [marked]
  | cons t ts ih =>
    have hnone : (ofMarked? r t).toList = [] ↔ ¬ t.IsMarked := by
      rw [← isSome_ofMarked?_iff (r := r)]
      cases ofMarked? r t <;> simp
    rw [marked, List.append_eq_nil_iff, hnone, ih, List.forall_mem_cons]

theorem line_le_of_mem_marked {r : Reader} {ts : List Trivia} {d : Doc} (h : d ∈ marked r ts) :
    r.line ≤ d.line := by
  induction ts generalizing r with
  | nil => cases h
  | cons t ts ih =>
    rcases List.mem_append.mp h with hhere | hlater
    · exact line_le_of_ofMarked? (Option.mem_toList.mp hhere)
    · exact Nat.le_trans (Reader.line_le_line_pass r t) (ih hlater)

end Doc

end SchemaLex
