-- SUMMARY: Quoted literals: the two quotes and the search for the closing one.

/-!
# Quoted Literals

A literal is a quote, a body and the same quote again. A backslash protects the character behind it,
so the body ends at the first quote of its kind that no backslash protects. `split?` finds that
place.
-/

namespace SchemaLex

/-- The two quotes that a literal may stand in. -/
inductive Quote where
  | single
  | double
  deriving DecidableEq

namespace Quote

/-- The character of a quote. -/
def char : Quote → Char
  | single => '\''
  | double => '"'

/-- The quote written with a character. -/
def ofChar? (c : Char) : Option Quote :=
  if c = '\'' then some single else if c = '"' then some double else none

/-- The token that a quote makes. -/
def token (q : Quote) : String := String.singleton q.char

theorem ofChar?_eq_some_iff {c : Char} {q : Quote} : ofChar? c = some q ↔ c = q.char := by
  cases q <;> simp only [ofChar?, char] <;> grind

@[simp] theorem ofChar?_char (q : Quote) : ofChar? q.char = some q := ofChar?_eq_some_iff.mpr rfl

theorem char_ne_backslash (q : Quote) : q.char ≠ '\\' := by cases q <;> decide

end Quote

namespace Literal

/-- The body and what follows the closing quote, for a text that starts behind the opening quote;
    `none` if nothing closes the literal. -/
def split? (q : Quote) : List Char → Option (List Char × List Char)
  | [] => none
  | '\\' :: c :: cs => (split? q cs).map fun (body, rest) => ('\\' :: c :: body, rest)
  | c :: cs =>
    if c = q.char then some ([], cs)
    else (split? q cs).map fun (body, rest) => (c :: body, rest)

/-- The text behind an opening quote is the body, the closing quote and the rest. -/
theorem eq_of_split? {q : Quote} {cs body rest : List Char} (h : split? q cs = some (body, rest)) :
    cs = body ++ q.char :: rest := by
  induction cs using split?.induct q generalizing body with
  | case1 => simp [split?] at h
  | case2 c cs ih =>
    simp only [split?, Option.map_eq_some_iff, Prod.mk.injEq] at h
    obtain ⟨⟨b, r⟩, hsplit, rfl, rfl⟩ := h
    simp [← ih hsplit]
  | case3 cs hne =>
    rw [split?, if_pos rfl] at h
    · simp only [Option.some.injEq, Prod.mk.injEq] at h
      obtain ⟨rfl, rfl⟩ := h
      rfl
    · exact hne
  | case4 c cs hne hq ih =>
    rw [split?, if_neg hq] at h
    · simp only [Option.map_eq_some_iff, Prod.mk.injEq] at h
      obtain ⟨⟨b, r⟩, hsplit, rfl, rfl⟩ := h
      simp [← ih hsplit]
    · exact hne

end Literal

end SchemaLex
