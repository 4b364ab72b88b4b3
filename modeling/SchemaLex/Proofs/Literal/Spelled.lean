-- SUMMARY: Decoding a body in two parts, and decoding the many spellings of one value.
import SchemaLex.Proofs.Literal.Signs

/-!
# Spellings of a Value

Decoding reads one or two characters at a time, so a body can be decoded in parts wherever no
backslash is left over at the seam. A value has many spellings, since seven characters have an
escape and all of them but the backslash may also stand for themselves. Each spelling decodes to the
value: `decode_in_parts`.
-/

namespace SchemaLex.Literal

/-- The character that makes an escape for `c` with a backslash in front. -/
def letter? (c : Char) : Option Char :=
  match c with
  | '\x00' => some '0'
  | '\r' => some 'r'
  | '\n' => some 'n'
  | '\t' => some 't'
  | '\\' => some '\\'
  | '"' => some '"'
  | '\'' => some '\''
  | _ => none

/-- How a character of a value is written. One that has an escape is written by it where that is
    asked for, and a backslash always. -/
def spell (byEscape : Bool) (c : Char) : List Char :=
  match letter? c with
  | some letter => if byEscape || c == '\\' then ['\\', letter] else [c]
  | none => [c]

/-- A body for a value. Every backslash is doubled; of the other characters that have an escape,
    those at the places picked by `byEscape` are written by it. -/
def spelled (byEscape : Nat → Bool) : List Char → List Char
  | [] => []
  | c :: cs => spell (byEscape 0) c ++ spelled (fun i => byEscape (i + 1)) cs

/-- The two parts of a body are decoded one by one, unless the first leaves a backslash over. -/
theorem decode_append {a : List Char} (h : ¬ Protects a) (b : List Char) :
    decode (a ++ b) = decode a ++ decode b := by
  induction a using signs_induction with
  | nil => rfl
  | lone => exact absurd protects_backslash h
  | escape c cs ih =>
    rw [List.cons_append, List.cons_append, decode_escape, ih (mt (protects_escape c cs).mpr h),
      decode_escape, List.append_assoc]
  | plain c cs hc ih =>
    rw [List.cons_append, decode_cons hc, ih (mt (protects_cons hc cs).mpr h), decode_cons hc,
      List.cons_append]

theorem escaped?_of_letter? {c letter : Char} (h : letter? c = some letter) :
    escaped? letter = some c := by
  unfold letter? at h
  split at h <;> cases h <;> rfl

/-- However a character is written, it is what is read, and the text behind it is read as before. -/
theorem decode_spell_append (byEscape : Bool) (c : Char) (cs : List Char) :
    decode (spell byEscape c ++ cs) = c :: decode cs := by
  unfold spell
  split
  · next letter hletter =>
    split
    · rw [List.cons_append, List.singleton_append, decode_escape, escaped?_of_letter? hletter]
      rfl
    · next hplain =>
      obtain ⟨-, hc⟩ : byEscape = false ∧ c ≠ '\\' := by simpa using hplain
      exact decode_cons hc cs
  · next hnone =>
    have hc : c ≠ '\\' := by
      rintro rfl
      cases hnone
    exact decode_cons hc cs

theorem decode_spelled (byEscape : Nat → Bool) (value : List Char) :
    decode (spelled byEscape value) = value := by
  induction value generalizing byEscape with
  | nil => rfl
  | cons c cs ih => rw [spelled, decode_spell_append, ih]

/-- A body is decoded in two parts wherever the first does not end in an odd number of backslashes,
    a body without a backslash is its own value, and however a value is written in a body, with
    every backslash doubled and an escape or none for each other character that has one, decoding
    brings it back. -/
theorem decode_in_parts :
    (∀ a b, backslashes a % 2 = 0 → decode (a ++ b) = decode a ++ decode b) ∧
      (∀ body, '\\' ∉ body → decode body = body) ∧
      ∀ byEscape value, decode (spelled byEscape value) = value := by
  refine ⟨?_, fun body => decode_eq_self, decode_spelled⟩
  intro a b heven
  have hfree : ¬ Protects a := by rw [Protects, heven]; decide
  exact decode_append hfree b

/-- Two escapes meet at a seam between backslashes, one of them unknown. -/
theorem decode_in_parts_between_escapes :
    backslashes ['a', '\\', '\\'] % 2 = 0 ∧
      decode (['a', '\\', '\\'] ++ ['\\', 'q', '"']) = ['a', '\\'] ++ ['"'] ∧
      '\\' ∉ ['"'] ∧ decode ['"'] = ['"'] ∧
      spelled (fun i => i == 1) ['"', '"', '\\', '\n'] = ['"', '\\', '"', '\\', '\\', '\n'] ∧
      decode ['"', '\\', '"', '\\', '\\', '\n'] = ['"', '"', '\\', '\n'] := by
  obtain ⟨happend, hplain, hspelled⟩ := decode_in_parts
  exact ⟨by decide, happend ['a', '\\', '\\'] ['\\', 'q', '"'] (by decide), by decide,
    hplain ['"'] (by decide), by decide, hspelled (fun i => i == 1) ['"', '"', '\\', '\n']⟩

end SchemaLex.Literal
