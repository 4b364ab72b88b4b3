-- SUMMARY: The signs that decoding takes a literal body for, and which backslashes open an escape.
import SchemaLex.Literal.Escape
import SchemaLex.Proofs.Literal.Closing

/-!
# Signs

Decoding goes through a body sign by sign: a character that stands for itself, an escape of two
characters, or a backslash that has nothing behind it. The search for the closing quote goes
character by character and only knows whether the character is protected. Both see the same escapes:
the protected characters are the second ones of the escapes (`flatMap_marks_signs`), and a backslash
is left over exactly where the quote behind the body would be protected (`lone_mem_signs_iff`).
-/

namespace SchemaLex.Literal

/-- What decoding takes at a time. -/
inductive Sign where
  /-- A character that stands for itself. -/
  | plain (c : Char)
  /-- A backslash and the character behind it. -/
  | escape (c : Char)
  /-- A backslash with nothing behind it. -/
  | lone
  deriving DecidableEq

namespace Sign

/-- The characters of a sign. -/
def chars : Sign → List Char
  | plain c => [c]
  | escape c => ['\\', c]
  | lone => ['\\']

/-- What a sign stands for. -/
def value : Sign → List Char
  | plain c => [c]
  | escape c => (escaped? c).toList
  | lone => ['\\']

/-- For each character of a sign, whether a backslash of the sign stands in front of it. -/
def marks : Sign → List Bool
  | plain _ => [false]
  | escape _ => [false, true]
  | lone => [false]

end Sign

/-- The signs of a body. -/
def signs : List Char → List Sign
  | [] => []
  | ['\\'] => [.lone]
  | '\\' :: c :: cs => .escape c :: signs cs
  | c :: cs => .plain c :: signs cs

/-- For each character of a text, whether the text in front of it protects it. -/
def protectedMarks (cs : List Char) : List Bool :=
  (List.range cs.length).map fun i => decide (Protects (cs.take i))

@[simp] theorem signs_nil : signs [] = [] := rfl

@[simp] theorem signs_lone : signs ['\\'] = [.lone] := rfl

@[simp] theorem signs_escape (c : Char) (cs : List Char) :
    signs ('\\' :: c :: cs) = .escape c :: signs cs := rfl

theorem signs_cons {c : Char} (h : c ≠ '\\') (cs : List Char) :
    signs (c :: cs) = .plain c :: signs cs := by
  rw [signs]
  · exact fun hc => absurd hc h
  · exact fun _ _ hc => absurd hc h

/-- An argument about a body, sign by sign. -/
theorem signs_induction {motive : List Char → Prop} (nil : motive []) (lone : motive ['\\'])
    (escape : ∀ c cs, motive cs → motive ('\\' :: c :: cs))
    (plain : ∀ c cs, c ≠ '\\' → motive cs → motive (c :: cs)) (cs : List Char) : motive cs := by
  induction cs using signs.induct with
  | case1 => exact nil
  | case2 => exact lone
  | case3 c cs ih => exact escape c cs ih
  | case4 c cs hlone hescape ih =>
    refine plain c cs ?_ ih
    rintro rfl
    cases cs with
    | nil => exact hlone rfl rfl
    | cons d ds => exact hescape d ds rfl rfl

/-- The signs of a body are the body. -/
theorem flatMap_chars_signs (cs : List Char) : (signs cs).flatMap Sign.chars = cs := by
  induction cs using signs_induction with
  | nil => rfl
  | lone => rfl
  | escape c cs ih => rw [signs_escape, List.flatMap_cons, ih]; rfl
  | plain c cs hc ih => rw [signs_cons hc, List.flatMap_cons, ih]; rfl

/-- Decoding goes sign by sign. -/
theorem decode_eq_flatMap (cs : List Char) : decode cs = (signs cs).flatMap Sign.value := by
  induction cs using signs_induction with
  | nil => rfl
  | lone => rfl
  | escape c cs ih => rw [decode_escape, ih]; rfl
  | plain c cs hc ih => rw [decode_cons hc, ih, signs_cons hc]; rfl

/-! ## Protected Characters -/

/-- A character is protected by a backslash that is not protected itself. -/
theorem protects_append_singleton (before : List Char) (c : Char) :
    Protects (before ++ [c]) ↔ c = '\\' ∧ ¬ Protects before := by
  unfold Protects backslashes
  rw [List.reverse_append, List.reverse_singleton, List.singleton_append]
  by_cases hc : c = '\\'
  · simp only [hc, beq_self_eq_true, List.takeWhile_cons_of_pos, List.length_cons, true_and]
    omega
  · rw [List.takeWhile_cons_of_neg (by simpa using hc)]
    simp [hc]

theorem protectedMarks_cons (c : Char) (cs : List Char) :
    protectedMarks (c :: cs) =
      false :: (List.range cs.length).map fun i => decide (Protects (c :: cs.take i)) := by
  simp only [protectedMarks, List.length_cons, List.range_succ_eq_map, List.map_cons, List.map_map,
    List.take_zero]
  rfl

theorem protectedMarks_escape (c : Char) (cs : List Char) :
    protectedMarks ('\\' :: c :: cs) = false :: true :: protectedMarks cs := by
  simp only [protectedMarks_cons, List.length_cons, List.range_succ_eq_map, List.map_cons,
    List.map_map, List.take_zero]
  refine congrArg (false :: true :: ·) (List.map_congr_left fun i _ => ?_)
  exact decide_eq_decide.mpr (protects_escape c _)

/-- The protected characters are those that an escape has behind its backslash. -/
theorem flatMap_marks_signs (cs : List Char) :
    (signs cs).flatMap Sign.marks = protectedMarks cs := by
  induction cs using signs_induction with
  | nil => rfl
  | lone => decide
  | escape c cs ih =>
    rw [signs_escape, List.flatMap_cons, ih, protectedMarks_escape]
    rfl
  | plain c cs hc ih =>
    rw [signs_cons hc, List.flatMap_cons, ih, protectedMarks_cons]
    refine congrArg (false :: ·) (List.map_congr_left fun i _ => ?_)
    exact decide_eq_decide.mpr (protects_cons hc _).symm

/-- Three backslashes and a quote are two escapes. -/
example : signs ['\\', '\\', '\\', '\''] = [.escape '\\', .escape '\''] := by decide

/-- A backslash is left over exactly if the character behind the body would be protected. -/
theorem lone_mem_signs_iff (cs : List Char) : .lone ∈ signs cs ↔ Protects cs := by
  induction cs using signs_induction with
  | nil => decide
  | lone => decide
  | escape c cs ih => rw [signs_escape, protects_escape, ← ih]; simp
  | plain c cs hc ih => rw [signs_cons hc, protects_cons hc, ← ih]; simp

end SchemaLex.Literal
