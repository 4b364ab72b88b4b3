-- SUMMARY: The layout of two texts with a line end between them.
import SchemaLex.Proofs.Layout.Parts

/-!
# Joined Layouts

Where a text ends behind a gap, a newline ends its last line and another text may follow. The
layout of the whole is made of the two layouts: the newline goes to the last gap of the first, where
it ends a line comment that the end of the text would have ended, and the first gap of the second
continues that gap. Nothing else of either changes: `Layout.divides_join`.
-/

namespace SchemaLex

namespace Trivia

/-- The gap with a newline behind it. -/
def endLine : List Trivia → List Trivia
  | [] => [blank '\n']
  | [line body false] => [line body true]
  | t :: ts => t :: endLine ts

variable {ts us : List Trivia} {rest : List Char}

theorem flatMap_chars_endLine (ts : List Trivia) :
    (endLine ts).flatMap chars = ts.flatMap chars ++ ['\n'] := by
  fun_induction endLine ts with
  | case1 => rfl
  | case2 body => simp [chars]
  | case3 t ts hne ih => rw [List.flatMap_cons, ih, List.flatMap_cons, List.append_assoc]

/-- A gap up to the end of the text may be continued once its line has ended. -/
theorem IsGap.endLine (h : IsGap ts []) (rest : List Char) : IsGap (endLine ts) rest := by
  fun_induction Trivia.endLine ts with
  | case1 => exact ⟨rfl, trivial⟩
  | case2 body => exact ⟨h.1.1, trivial⟩
  | case3 t ts hne ih =>
    refine ⟨?_, ih h.2⟩
    cases t with
    | blank c => exact h.1
    | block body => exact h.1
    | line body ended =>
      cases ended with
      | true => exact h.1
      -- a comment that the end of the text ends would be the last item
      | false => exact absurd (IsGap.ended h (hne body rfl)) Bool.false_ne_true

/-- In front of something a gap may be in front of anything else. -/
theorem IsGap.of_ne_nil (h : IsGap ts rest) (hrest : rest ≠ []) (rest' : List Char) :
    IsGap ts rest' := by
  induction ts with
  | nil => trivial
  | cons t ts ih =>
    refine ⟨?_, ih h.2⟩
    cases t with
    | blank c => exact h.1
    | block body => exact h.1
    | line body ended =>
      cases ended with
      | true => exact h.1
      | false => exact absurd (List.append_eq_nil_iff.mp h.1.2).2 hrest

theorem IsGap.append (h : IsGap ts (us.flatMap chars ++ rest)) (h' : IsGap us rest) :
    IsGap (ts ++ us) rest := by
  induction ts with
  | nil => exact h'
  | cons t ts ih => exact ⟨by simpa using h.1, ih h.2⟩

end Trivia

/-- A piece that may stand in front of a text may stand there if a further line follows the text. -/
theorem Piece.Fits.append_newline {p : Piece} {rest : List Char} (h : p.Fits rest)
    (later : List Char) : p.Fits (rest ++ '\n' :: later) := by
  have hhead : (rest ++ '\n' :: later).head? = some '\n' ∨
      (rest ++ '\n' :: later).head? = rest.head? := by
    cases rest with
    | nil => exact .inl rfl
    | cons c cs => exact .inr rfl
  cases p with
  | word text =>
    refine ⟨h.1, ?_⟩
    rcases hhead with hhead | hhead
    · rw [hhead]
      intro c hc
      obtain rfl := Option.some.inj hc
      decide
    · rw [hhead]
      exact h.2
  | mark c =>
    refine h.imp_right fun hslash => ⟨hslash.1, ?_⟩
    rcases hhead with hhead | hhead
    · rw [hhead]
      decide
    · rw [hhead]
      exact hslash.2
  | literal q body => exact h

namespace Layout

/-- The layout with further items in front. -/
def prepend (ts : List Trivia) : Layout → Layout
  | last gap ending => last (ts ++ gap) ending
  | more gap piece rest => more (ts ++ gap) piece rest

/-- The layout of a text that ends behind a gap, with its last line ended and another text behind
    it. -/
def join : Layout → Layout → Layout
  | last gap _, later => later.prepend (Trivia.endLine gap)
  | more gap piece rest, later => more gap piece (rest.join later)

/-- The parts of a text that ends behind a gap, with its last line ended. -/
def endedParts : Layout → List Part
  | last gap _ => (Trivia.endLine gap).map .trivia
  | more gap piece rest => gap.map .trivia ++ (piece.parts ++ rest.endedParts)

variable {l later : Layout} {ts : List Trivia}

/-! ## Items in Front -/

theorem chars_prepend (ts : List Trivia) (l : Layout) :
    (l.prepend ts).chars = ts.flatMap Trivia.chars ++ l.chars := by
  cases l <;> simp [prepend, chars]

theorem parts_prepend (ts : List Trivia) (l : Layout) :
    (l.prepend ts).parts = ts.map .trivia ++ l.parts := by
  cases l <;> simp [prepend, parts]

theorem ending_prepend (ts : List Trivia) (l : Layout) : (l.prepend ts).ending = l.ending := by
  cases l <;> rfl

theorem Fits.prepend (h : l.Fits) (hgap : Trivia.IsGap ts l.chars) : (l.prepend ts).Fits := by
  cases l with
  | last gap e => exact ⟨hgap.append h.1, h.2⟩
  | more gap p rest => exact ⟨hgap.append h.1, h.2⟩

/-! ## Joining -/

theorem parts_join (l later : Layout) : (l.join later).parts = l.endedParts ++ later.parts := by
  induction l with
  | last gap e => exact parts_prepend _ _
  | more gap p rest ih => simp [join, parts, endedParts, ih]

theorem ending_join (l later : Layout) : (l.join later).ending = later.ending := by
  induction l with
  | last gap e => exact ending_prepend _ _
  | more gap p rest ih => exact ih

theorem chars_join (h : l.ending = .complete) (later : Layout) :
    (l.join later).chars = l.chars ++ '\n' :: later.chars := by
  induction l with
  | last gap e =>
    obtain rfl : e = .complete := h
    rw [join, chars_prepend, Trivia.flatMap_chars_endLine]
    simp [chars, Ending.chars]
  | more gap p rest ih => simp [join, chars, ih h]

theorem Fits.join (h : l.Fits) (hend : l.ending = .complete) (hlater : later.Fits) :
    (l.join later).Fits := by
  induction l with
  | last gap e =>
    obtain rfl : e = .complete := hend
    exact hlater.prepend (h.1.endLine later.chars)
  | more gap p rest ih =>
    obtain ⟨hgap, hp, hrest⟩ := h
    have hne : p.chars ++ rest.chars ≠ [] := by simp [Piece.chars_ne_nil hp]
    have hchars := chars_join (l := rest) hend later
    refine ⟨hgap.of_ne_nil hne _, ?_, ih hrest hend⟩
    rw [hchars]
    exact hp.append_newline _

/-- The text with a further line behind it has the joined layout. -/
theorem divides_join {cs ds : List Char} (h : l.Divides cs) (hend : l.ending = .complete)
    (hlater : later.Divides ds) : (l.join later).Divides (cs ++ '\n' :: ds) := by
  refine ⟨?_, h.fits.join hend hlater.fits⟩
  rw [chars_join hend, h.chars, hlater.chars]

end Layout

end SchemaLex
