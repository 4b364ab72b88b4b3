-- SUMMARY: A text with a carriage return in front of each newline, and what becomes of its gaps.
import Mathlib.Data.List.Forall2
import SchemaLex.Proofs.Trivia.Gap

/-!
# Carriage Returns

A text may end its lines with a carriage return in front of each newline. The carriage return is
white space, so it becomes an item of its own in front of a newline that stands between comments,
and the last character of a line comment that its newline ends: `gap_withReturns`.
-/

namespace SchemaLex

namespace Text

/-- A newline with a carriage return in front of it, any other character as it is. -/
def withReturn (c : Char) : List Char := if c = '\n' then ['\r', '\n'] else [c]

/-- The text with a carriage return in front of each newline. -/
def withReturns (cs : List Char) : List Char := cs.flatMap withReturn

/-- A line as it is, or with a carriage return at its end. -/
def Returned (l l' : List Char) : Prop := l' = l ∨ l' = l ++ ['\r']

@[simp] theorem withReturns_nil : withReturns [] = [] := rfl

theorem withReturns_newline (cs : List Char) :
    withReturns ('\n' :: cs) = '\r' :: '\n' :: withReturns cs := rfl

theorem withReturns_cons {c : Char} (hc : c ≠ '\n') (cs : List Char) :
    withReturns (c :: cs) = c :: withReturns cs := by
  rw [withReturns, List.flatMap_cons, withReturn, if_neg hc]
  rfl

@[simp] theorem withReturns_append (cs ds : List Char) :
    withReturns (cs ++ ds) = withReturns cs ++ withReturns ds :=
  List.flatMap_append

theorem withReturns_eq_self {cs : List Char} (h : '\n' ∉ cs) : withReturns cs = cs := by
  induction cs with
  | nil => rfl
  | cons c cs ih =>
    obtain ⟨hc, hcs⟩ := not_or.mp (mt List.mem_cons.mpr h)
    rw [withReturns_cons (Ne.symm hc), ih hcs]

/-- Only a newline at the front changes which character stands there. -/
theorem head?_withReturns {cs : List Char} {c : Char} (hreturn : c ≠ '\r') (hnewline : c ≠ '\n') :
    (withReturns cs).head? = some c ↔ cs.head? = some c := by
  cases cs with
  | nil => rfl
  | cons d ds =>
    by_cases hd : d = '\n'
    · subst hd
      simp [withReturns_newline, hreturn.symm, hnewline.symm]
    · simp [withReturns_cons hd]

theorem count_newline_withReturns (cs : List Char) :
    (withReturns cs).count '\n' = cs.count '\n' := by
  induction cs with
  | nil => rfl
  | cons c cs ih =>
    by_cases hc : c = '\n'
    · subst hc
      simp [withReturns_newline, ih]
    · simp [withReturns_cons hc, ih, List.count_cons]

theorem withReturns_eq_nil_iff {cs : List Char} : withReturns cs = [] ↔ cs = [] := by
  cases cs with
  | nil => simp
  | cons c cs =>
    by_cases hc : c = '\n'
    · subst hc
      simp [withReturns_newline]
    · simp [withReturns_cons hc]

/-- What ends at a newline ends at the carriage return in front of it. -/
theorem takeWhile_withReturns {p : Char → Bool} (hreturn : p '\r' = false)
    (hnewline : p '\n' = false) (cs : List Char) :
    (withReturns cs).takeWhile p = cs.takeWhile p := by
  induction cs with
  | nil => rfl
  | cons c cs ih =>
    by_cases hc : c = '\n'
    · subst hc
      simp [withReturns_newline, hreturn, hnewline]
    · rw [withReturns_cons hc, List.takeWhile_cons, ih, List.takeWhile_cons]

end Text

namespace Trivia

/-- The items of the text with returns that an item becomes. -/
def withReturns : Trivia → List Trivia
  | blank c => (Text.withReturn c).map blank
  | line body true => [line (body ++ ['\r']) true]
  | line body false => [line body false]
  | block body => [block (Text.withReturns body)]

variable {t : Trivia} {ts : List Trivia} {rest : List Char}

theorem withReturns_ne_nil (t : Trivia) : t.withReturns ≠ [] := by
  cases t with
  | blank c =>
    by_cases hc : c = '\n'
    · simp [withReturns, Text.withReturn, hc]
    · simp [withReturns, Text.withReturn, hc]
  | line body ended => cases ended <;> simp [withReturns]
  | block body => simp [withReturns]

/-! ## Characters -/

theorem Fits.flatMap_chars_withReturns (h : t.Fits rest) :
    t.withReturns.flatMap chars = Text.withReturns t.chars := by
  cases t with
  | blank c =>
    have hchars : Text.withReturns (blank c).chars = Text.withReturn c := by
      simp [chars, Text.withReturns]
    rw [hchars, withReturns, flatMap_chars_blanks]
  | line body ended =>
    cases ended with
    | true =>
      have hbody : '\n' ∉ body := h
      have hline : Text.withReturns ('/' :: '/' :: body) = '/' :: '/' :: body :=
        Text.withReturns_eq_self (by simp [hbody])
      simp only [withReturns, chars, List.flatMap_cons, List.flatMap_nil, List.append_nil,
        ↓reduceIte, Text.withReturns_append, hline]
      simp [Text.withReturns_newline]
    | false =>
      have hline : Text.withReturns ('/' :: '/' :: body) = '/' :: '/' :: body :=
        Text.withReturns_eq_self (by simp [h.1])
      simpa [withReturns, chars] using hline.symm
  | block body =>
    have hopen : Text.withReturns ('/' :: '*' :: body) = '/' :: '*' :: Text.withReturns body := by
      rw [Text.withReturns_cons (by decide), Text.withReturns_cons (by decide)]
    have hclose : Text.withReturns ['*', '/'] = ['*', '/'] := by decide
    have hchars : (block body).chars = ('/' :: '*' :: body) ++ ['*', '/'] := rfl
    rw [hchars, Text.withReturns_append, hopen, hclose, withReturns, List.flatMap_singleton]
    rfl

theorem IsGap.flatMap_chars_withReturns (h : IsGap ts rest) :
    (ts.flatMap withReturns).flatMap chars = Text.withReturns (ts.flatMap chars) := by
  induction ts with
  | nil => rfl
  | cons t ts ih =>
    rw [List.flatMap_cons, List.flatMap_append, h.1.flatMap_chars_withReturns, ih h.2,
      List.flatMap_cons, Text.withReturns_append]

/-! ## Gaps -/

theorem noClosingMark_cons_iff {c : Char} {cs : List Char} :
    NoClosingMark (c :: cs) ↔ ¬ (c = '*' ∧ cs.head? = some '/') ∧ NoClosingMark cs := by
  have hfront : ['*', '/'] <+: c :: cs ↔ c = '*' ∧ cs.head? = some '/' := by
    cases cs with
    | nil => simp
    | cons d ds => simp [List.cons_prefix_cons, eq_comm]
  rw [NoClosingMark, List.infix_cons_iff, hfront, not_or]
  rfl

theorem NoClosingMark.withReturns {body : List Char} (h : NoClosingMark body) :
    NoClosingMark (Text.withReturns body) := by
  induction body with
  | nil => exact h
  | cons c cs ih =>
    obtain ⟨hfront, hcs⟩ := noClosingMark_cons_iff.mp h
    by_cases hc : c = '\n'
    · subst hc
      rw [Text.withReturns_newline]
      refine noClosingMark_cons_iff.mpr ⟨by simp, noClosingMark_cons_iff.mpr ⟨by simp, ih hcs⟩⟩
    · rw [Text.withReturns_cons hc]
      refine noClosingMark_cons_iff.mpr ⟨fun hmark => hfront ⟨hmark.1, ?_⟩, ih hcs⟩
      exact (Text.head?_withReturns (by decide) (by decide)).mp hmark.2

theorem IsGap.withReturns (h : IsGap ts rest) :
    IsGap (ts.flatMap withReturns) (Text.withReturns rest) := by
  induction ts with
  | nil => trivial
  | cons t ts ih =>
    have hlater := ih h.2
    cases t with
    | blank c =>
      by_cases hc : c = '\n'
      · subst hc
        exact ⟨(by decide : Text.isBlank '\r'), (by decide : Text.isBlank '\n'), hlater⟩
      · rw [List.flatMap_cons, Trivia.withReturns, Text.withReturn, if_neg hc]
        exact ⟨h.1, hlater⟩
    | line body ended =>
      cases ended with
      | true =>
        have hbody : '\n' ∉ body := h.1
        refine ⟨?_, hlater⟩
        simp [Fits, hbody]
      | false =>
        obtain ⟨hbody, hnil⟩ := h.1
        obtain ⟨hchars, rfl⟩ := List.append_eq_nil_iff.mp hnil
        refine ⟨⟨hbody, ?_⟩, hlater⟩
        change (ts.flatMap Trivia.withReturns).flatMap chars ++ [] = []
        rw [h.2.flatMap_chars_withReturns, hchars]
        rfl
    | block body => exact ⟨NoClosingMark.withReturns h.1, hlater⟩

theorem read?_withReturns {cs : List Char} (h : read? cs = none) :
    read? (Text.withReturns cs) = none := by
  rcases read?_eq_none_iff.mp h with rfl | ⟨body, rfl, hbody⟩ | ⟨c, tail, rfl, hblank, hslash⟩
  · rfl
  · rw [Text.withReturns_cons (by decide), Text.withReturns_cons (by decide)]
    exact read?_eq_none_iff.mpr (.inr (.inl ⟨_, rfl, hbody.withReturns⟩))
  · have hc : c ≠ '\n' := by
      rintro rfl
      exact absurd hblank (by decide)
    rw [Text.withReturns_cons hc]
    refine read?_eq_none_iff.mpr (.inr (.inr ⟨c, _, rfl, hblank, fun heq => ?_⟩))
    obtain ⟨hline, hblock⟩ := hslash heq
    exact ⟨mt (Text.head?_withReturns (by decide) (by decide)).mp hline,
      mt (Text.head?_withReturns (by decide) (by decide)).mp hblock⟩

/-- The gap of the text with returns is the gap of the text, item by item. -/
theorem gap_withReturns (cs : List Char) :
    gap (Text.withReturns cs) =
      ((gap cs).1.flatMap withReturns, Text.withReturns (gap cs).2) := by
  have hgap := isGap_gap cs
  refine gap_eq_iff.mpr ⟨?_, hgap.withReturns, read?_withReturns (read?_gap cs)⟩
  rw [hgap.flatMap_chars_withReturns, ← Text.withReturns_append, flatMap_chars_gap]

/-! ## Runs of Line Comments -/

/-- A carriage return is no indentation, so a run goes as far as it went. -/
theorem run_withReturns (ts : List Trivia) :
    run (ts.flatMap withReturns) =
      ((run ts).1.flatMap withReturns, (run ts).2.flatMap withReturns) := by
  induction ts with
  | nil => rfl
  | cons t ts ih =>
    cases t with
    | blank c =>
      by_cases hc : c = '\n'
      · subst hc
        rfl
      · have hempty : ((run ts).1.flatMap withReturns).isEmpty = (run ts).1.isEmpty := by
          cases (run ts).1 with
          | nil => rfl
          | cons u us => simp [withReturns_ne_nil]
        have hitem : (blank c).withReturns = [blank c] := by
          simp [withReturns, Text.withReturn, hc]
        rw [List.flatMap_cons, hitem, List.singleton_append, run, ih, run]
        dsimp only
        rw [hempty]
        split
        · simp [hitem]
        · simp [hitem]
    | line body ended =>
      cases ended with
      | true =>
        change run (line (body ++ ['\r']) true :: ts.flatMap withReturns) = _
        rw [run, ih]
        rfl
      | false =>
        change run (line body false :: ts.flatMap withReturns) = _
        rw [run, ih]
        rfl
    | block body => rfl

theorem lineBodies_withReturns (ts : List Trivia) :
    List.Forall₂ Text.Returned (lineBodies ts) (lineBodies (ts.flatMap withReturns)) := by
  induction ts with
  | nil => exact .nil
  | cons t ts ih =>
    cases t with
    | blank c =>
      by_cases hc : c = '\n'
      · subst hc
        exact ih
      · rw [List.flatMap_cons, withReturns, Text.withReturn, if_neg hc]
        exact ih
    | line body ended =>
      cases ended with
      | true => exact .cons (.inr rfl) ih
      | false => exact .cons (.inl rfl) ih
    | block body => exact ih

end Trivia

end SchemaLex
