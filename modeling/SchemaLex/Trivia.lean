-- SUMMARY: The items of a gap between lexemes: white space and comments.
import SchemaLex.Text.Blank

/-!
# Trivia

What stands between lexemes: white space characters, line comments and block comments. A line
comment runs to its newline or to the end of the text, a block comment to the first closing mark
behind its opening one. The gap at the front of a text is its longest run of such items, and reading
it loses nothing: `flatMap_chars_gap`.
-/

namespace SchemaLex

/-- An item of a gap. -/
inductive Trivia where
  /-- A white space character. -/
  | blank (c : Char)
  /-- A line comment without its two slashes, with or without a newline that ends it. -/
  | line (body : List Char) (ended : Bool)
  /-- A block comment without its opening and its closing mark. -/
  | block (body : List Char)
  deriving DecidableEq

namespace Trivia

/-- The characters of an item. -/
def chars : Trivia → List Char
  | blank c => [c]
  | line body ended => '/' :: '/' :: body ++ if ended then ['\n'] else []
  | block body => '/' :: '*' :: body ++ ['*', '/']

/-- A line comment that the end of the text ends still ends its line. -/
def impliedLineEnds : Trivia → Nat
  | line _ false => 1
  | _ => 0

/-! ## Reading One Item -/

/-- The body of a block comment and what follows its closing mark, for a text that starts behind the
    opening mark; `none` if nothing closes the comment. -/
def splitBlock? : List Char → Option (List Char × List Char)
  | [] => none
  | '*' :: '/' :: cs => some ([], cs)
  | c :: cs => (splitBlock? cs).map fun (body, rest) => (c :: body, rest)

/-- The line comment at the front of a text that starts behind its two slashes, and the rest. -/
def splitLine (cs : List Char) : Trivia × List Char :=
  match cs.dropWhile (· != '\n') with
  | [] => (line (cs.takeWhile (· != '\n')) false, [])
  | _ :: rest => (line (cs.takeWhile (· != '\n')) true, rest)

/-- The item at the front of a text and the rest; `none` where no item starts or a block comment
    stays open. -/
def read? : List Char → Option (Trivia × List Char)
  | [] => none
  | '/' :: '/' :: cs => some (splitLine cs)
  | '/' :: '*' :: cs => (splitBlock? cs).map fun (body, rest) => (block body, rest)
  | c :: cs => if Text.isBlank c then some (blank c, cs) else none

/-- The text behind the opening mark is the body, the closing mark and the rest. -/
theorem eq_of_splitBlock? {cs body rest : List Char} (h : splitBlock? cs = some (body, rest)) :
    cs = body ++ '*' :: '/' :: rest := by
  induction cs using splitBlock?.induct generalizing body with
  | case1 => simp [splitBlock?] at h
  | case2 cs =>
    simp only [splitBlock?, Option.some.injEq, Prod.mk.injEq] at h
    obtain ⟨rfl, rfl⟩ := h
    rfl
  | case3 c cs hne ih =>
    rw [splitBlock?] at h
    · simp only [Option.map_eq_some_iff, Prod.mk.injEq] at h
      obtain ⟨⟨b, r⟩, hsplit, rfl, rfl⟩ := h
      simp [← ih hsplit]
    · exact hne

/-- The text behind two slashes is the comment without them and the rest. -/
theorem eq_of_splitLine (cs : List Char) :
    '/' :: '/' :: cs = (splitLine cs).1.chars ++ (splitLine cs).2 := by
  have hsplit := List.takeWhile_append_dropWhile (p := (· != '\n')) (l := cs)
  unfold splitLine
  split
  · next hnil =>
    rw [hnil, List.append_nil] at hsplit
    simp [chars, hsplit]
  · next c rest hcons =>
    have hc : c = '\n' := by
      have := List.head?_dropWhile_not (· != '\n') cs
      simpa [hcons] using this
    subst hc
    rw [hcons] at hsplit
    simp [chars, hsplit]

/-- A text is the item at its front and the rest. -/
theorem eq_of_read? {cs rest : List Char} {t : Trivia} (h : read? cs = some (t, rest)) :
    cs = t.chars ++ rest := by
  unfold read? at h
  split at h
  · simp at h
  · next cs =>
    obtain ⟨rfl, rfl⟩ := Prod.mk.inj (Option.some.inj h)
    exact eq_of_splitLine cs
  · next cs =>
    simp only [Option.map_eq_some_iff, Prod.mk.injEq] at h
    obtain ⟨⟨b, r⟩, hsplit, rfl, rfl⟩ := h
    simp [chars, eq_of_splitBlock? hsplit]
  · next c cs _ _ =>
    split at h
    · obtain ⟨rfl, rfl⟩ := Prod.mk.inj (Option.some.inj h)
      rfl
    · simp at h

theorem chars_ne_nil (t : Trivia) : t.chars ≠ [] := by cases t <;> simp [chars]

theorem length_lt_of_read? {cs rest : List Char} {t : Trivia} (h : read? cs = some (t, rest)) :
    rest.length < cs.length := by
  have := List.length_pos_iff.mpr t.chars_ne_nil
  rw [eq_of_read? h, List.length_append]
  omega

/-! ## Reading a Gap -/

/-- The items of the gap at the front of a text and the rest. -/
def gap (cs : List Char) : List Trivia × List Char :=
  match h : read? cs with
  | none => ([], cs)
  | some (t, rest) =>
    have := length_lt_of_read? h
    let later := gap rest
    (t :: later.1, later.2)
termination_by cs.length

theorem gap_of_read?_eq_none {cs : List Char} (h : read? cs = none) : gap cs = ([], cs) := by
  rw [gap]
  split <;> simp_all

theorem gap_of_read?_eq_some {cs rest : List Char} {t : Trivia} (h : read? cs = some (t, rest)) :
    gap cs = (t :: (gap rest).1, (gap rest).2) := by
  rw [gap]
  split <;> simp_all

/-- A text is the items of its gap and the rest. -/
theorem flatMap_chars_gap (cs : List Char) : (gap cs).1.flatMap chars ++ (gap cs).2 = cs := by
  fun_induction gap cs with
  | case1 => simp
  | case2 cs t rest h hlt later ih =>
    simp only [List.flatMap_cons, List.append_assoc, later, ih]
    exact (eq_of_read? h).symm

/-- The gap is as long as it can be: no item starts where it ends. -/
theorem read?_gap (cs : List Char) : read? (gap cs).2 = none := by
  fun_induction gap cs with
  | case1 cs h => exact h
  | case2 cs t rest h hlt later ih => exact ih

/-! ## Runs of Line Comments -/

/-- The items at the front of a list that are line comments or indentation before one, and the items
    left. Indentation that no line comment follows is left. -/
def run : List Trivia → List Trivia × List Trivia
  | [] => ([], [])
  | line body ended :: ts =>
    let below := run ts
    (line body ended :: below.1, below.2)
  | blank c :: ts =>
    let below := run ts
    if Text.isIndent c && !below.1.isEmpty then (blank c :: below.1, below.2)
    else ([], blank c :: ts)
  | block body :: ts => ([], block body :: ts)

/-- The bodies of the line comments among the items. -/
def lineBodies : List Trivia → List (List Char)
  | [] => []
  | line body _ :: ts => body :: lineBodies ts
  | _ :: ts => lineBodies ts

/-- A run and the items left are all the items. -/
theorem run_append (ts : List Trivia) : (run ts).1 ++ (run ts).2 = ts := by
  induction ts with
  | nil => rfl
  | cons t ts ih =>
    cases t with
    | blank c => rw [run]; split <;> simp [ih]
    | line body ended => simp [run, ih]
    | block body => simp [run]

theorem length_run_le (ts : List Trivia) : (run ts).2.length ≤ ts.length := by
  have h := congrArg List.length (run_append ts)
  rw [List.length_append] at h
  omega

end Trivia

end SchemaLex
