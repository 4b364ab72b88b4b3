-- SUMMARY: The value of a literal body: decoding its backslash escapes.

/-!
# Escapes

A backslash and the character behind it are one escape. Seven escapes have a value, all others stand
for nothing. A backslash with nothing behind it stands for itself.
-/

namespace SchemaLex.Literal

/-- The value of a backslash and `c`; `none` if this escape has none. -/
def escaped? (c : Char) : Option Char :=
  match c with
  | '0' => some '\x00'
  | 'r' => some '\r'
  | 'n' => some '\n'
  | 't' => some '\t'
  | '\\' => some '\\'
  | '"' => some '"'
  | '\'' => some '\''
  | _ => none

/-- The value that a literal body stands for. -/
def decode : List Char → List Char
  | [] => []
  | '\\' :: c :: cs => (escaped? c).toList ++ decode cs
  | c :: cs => c :: decode cs

@[simp] theorem decode_nil : decode [] = [] := rfl

@[simp] theorem decode_escape (c : Char) (cs : List Char) :
    decode ('\\' :: c :: cs) = (escaped? c).toList ++ decode cs := rfl

@[simp] theorem decode_lone_backslash : decode ['\\'] = ['\\'] := rfl

theorem decode_cons {c : Char} (h : c ≠ '\\') (cs : List Char) :
    decode (c :: cs) = c :: decode cs := by
  rw [decode]
  simp [h]

/-- A body without a backslash is its own value. -/
theorem decode_eq_self {cs : List Char} (h : '\\' ∉ cs) : decode cs = cs := by
  induction cs with
  | nil => rfl
  | cons c cs ih =>
    simp only [List.mem_cons, not_or] at h
    rw [decode_cons (Ne.symm h.1), ih h.2]

end SchemaLex.Literal
