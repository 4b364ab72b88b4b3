-- SUMMARY: A text as the list of its parts, and a reader that moves over them one by one.
import Mathlib.Algebra.GroupWithZero.Nat
import SchemaLex.Proofs.Layout
import SchemaLex.Proofs.Reader

/-!
# The Parts of a Text

A layout read from the front is a list of parts, each of which a session crosses as a whole: the
items of its gaps, its lexemes, and the literal bodies with the quotes that close them. A place of a
session cuts this list in two, so what a session has seen of its text is a beginning of the list.
-/

namespace SchemaLex

/-- What a session crosses as a whole. -/
inductive Part where
  /-- The byte order mark in front of a text. -/
  | byteOrderMark
  /-- An item of a gap. -/
  | trivia (t : Trivia)
  /-- A word, a mark or the quote that opens a literal. -/
  | lexeme (l : Lexeme)
  /-- The body of a literal and the quote that closes it. -/
  | body (text : List Char) (q : Quote)
  deriving DecidableEq

namespace Part

def chars : Part → List Char
  | byteOrderMark => ['\uFEFF']
  | trivia t => t.chars
  | lexeme l => l.chars
  | body text q => text ++ [q.char]

/-- The tokens of a part. The quote that closes a literal comes with its value. -/
def tokens : Part → List String
  | byteOrderMark => []
  | trivia _ => []
  | lexeme l => [l.token]
  | body text q => [String.ofList (Literal.decode text), q.token]

/-- How far a line counter moves over the part, the newlines of literals counted or not. -/
def lineEnds (inLiterals : Bool) : Part → Nat
  | byteOrderMark => 0
  | trivia t => t.chars.count '\n' + t.impliedLineEnds
  | lexeme l => l.chars.count '\n'
  | body text q => if inLiterals then (text ++ [q.char]).count '\n' else 0

/-- The parts that lie within the first `n` characters. -/
def within : Nat → List Part → List Part
  | _, [] => []
  | n, p :: ps => if p.chars.length ≤ n then p :: within (n - p.chars.length) ps else []

/-- The line counter behind the parts of a text that starts with them. -/
def lineBehind (inLiterals : Bool) (ps : List Part) : Nat :=
  1 + (ps.map (lineEnds inLiterals)).sum

theorem lineBehind_append (inLiterals : Bool) (ps qs : List Part) :
    lineBehind inLiterals (ps ++ qs) =
      lineBehind inLiterals ps + (qs.map (lineEnds inLiterals)).sum := by
  rw [lineBehind, lineBehind, List.map_append, List.sum_append, Nat.add_assoc]

/-- The parts of a text that lie within the characters of the first of them are those first. -/
theorem within_append {before after : List Part} (h : ∀ p ∈ after, p.chars ≠ []) :
    within (before.flatMap chars).length (before ++ after) = before := by
  induction before with
  | nil =>
    cases after with
    | nil => rfl
    | cons p ps =>
      have hpos := List.length_pos_iff.mpr (h p List.mem_cons_self)
      simp only [List.flatMap_nil, List.length_nil, List.nil_append, within]
      rw [if_neg (by omega)]
  | cons p ps ih =>
    rw [List.flatMap_cons, List.length_append, List.cons_append, within, if_pos (by omega),
      Nat.add_sub_cancel_left, ih]

end Part

/-! ## The Parts of a Layout -/

def Piece.parts : Piece → List Part
  | word text => [.lexeme (.word text)]
  | mark c => [.lexeme (.mark c)]
  | literal q body => [.lexeme (.quote q), .body body q]

/-- The quote of a literal that stays open is crossed, the rest of what is open is not. -/
def Ending.parts : Ending → List Part
  | openLiteral q _ => [.lexeme (.quote q)]
  | _ => []

/-- The characters that no session gets past: what is open at the end of the text. -/
def Ending.unread : Ending → List Char
  | complete => []
  | openComment body => '/' :: '*' :: body
  | openLiteral _ body => body

def Layout.parts : Layout → List Part
  | last gap ending => gap.map .trivia ++ ending.parts
  | more gap piece rest => gap.map .trivia ++ (piece.parts ++ rest.parts)

/-- The gap behind the last piece. -/
def Layout.lastGap : Layout → List Trivia
  | last gap _ => gap
  | more _ _ rest => rest.lastGap

/-- The last item of a gap is a line comment that the end of the text ends. -/
def Trivia.endsInLineComment (gap : List Trivia) : Bool :=
  match gap.getLast? with
  | some (.line _ false) => true
  | _ => false

namespace Part

/-- The parts in front of the first gap. -/
def leading (marked : Bool) : List Part := if marked then [byteOrderMark] else []

theorem chars_ne_nil_of_mem_leading {marked : Bool} : ∀ p ∈ leading marked, p.chars ≠ [] := by
  cases marked <;> simp [leading, chars]

theorem flatMap_chars_trivia (gap : List Trivia) :
    (gap.map trivia).flatMap chars = gap.flatMap Trivia.chars := by
  rw [List.flatMap_map]
  rfl

theorem flatMap_tokens_trivia (gap : List Trivia) : (gap.map trivia).flatMap tokens = [] := by
  rw [List.flatMap_map]
  exact List.flatMap_eq_nil_iff.mpr fun _ _ => rfl

end Part

theorem Piece.flatMap_chars_parts (p : Piece) : p.parts.flatMap Part.chars = p.chars := by
  cases p <;> simp [parts, chars, Part.chars, Lexeme.chars]

theorem Lexeme.token_quote (q : Quote) : (quote q).token = q.token :=
  String.singleton_eq_ofList.symm

theorem Ending.flatMap_chars_parts (e : Ending) :
    e.parts.flatMap Part.chars ++ e.unread = e.chars := by
  cases e <;> rfl

namespace Layout

/-- The parts and what stays unread are the whole text. -/
theorem flatMap_chars_parts (l : Layout) :
    l.parts.flatMap Part.chars ++ l.ending.unread = l.chars := by
  induction l with
  | last gap e =>
    rw [parts, List.flatMap_append, Part.flatMap_chars_trivia, List.append_assoc]
    exact congrArg _ e.flatMap_chars_parts
  | more gap p rest ih =>
    rw [parts, List.flatMap_append, List.flatMap_append, Part.flatMap_chars_trivia,
      p.flatMap_chars_parts, List.append_assoc, List.append_assoc]
    exact congrArg _ (congrArg _ ih)

theorem exists_append_ending (l : Layout) : ∃ front, l.chars = front ++ l.ending.chars := by
  induction l with
  | last gap e => exact ⟨_, rfl⟩
  | more gap p rest ih =>
    obtain ⟨front, hfront⟩ := ih
    refine ⟨gap.flatMap Trivia.chars ++ (p.chars ++ front), ?_⟩
    simp [chars, ending, hfront]

/-- No part of a layout is without characters. -/
theorem chars_ne_nil_of_mem_parts {l : Layout} (h : l.Fits) : ∀ p ∈ l.parts, p.chars ≠ [] := by
  have htrivia (gap : List Trivia) : ∀ p ∈ gap.map Part.trivia, p.chars ≠ [] := by
    intro p hp
    obtain ⟨t, -, rfl⟩ := List.mem_map.mp hp
    exact t.chars_ne_nil
  induction l with
  | last gap e =>
    refine List.forall_mem_append.mpr ⟨htrivia gap, ?_⟩
    cases e <;> simp [Ending.parts, Part.chars, Lexeme.chars]
  | more gap p rest ih =>
    obtain ⟨-, hp, hrest⟩ := h
    refine List.forall_mem_append.mpr ⟨htrivia gap, List.forall_mem_append.mpr ⟨?_, ih hrest⟩⟩
    cases p with
    | word text => simpa [Piece.parts, Part.chars, Lexeme.chars] using hp.1.ne_nil
    | mark c => simp [Piece.parts, Part.chars, Lexeme.chars]
    | literal q body => simp [Piece.parts, Part.chars, Lexeme.chars]

end Layout

/-- The parts of a text with the given layout, a byte order mark in front of it included. -/
def Text.parts (cs : List Char) (layout : Layout) : List Part :=
  Part.leading (cs.head? == some '\uFEFF') ++ layout.parts

theorem Text.chars_ne_nil_of_mem_parts {cs : List Char} {layout : Layout} (h : layout.Fits) :
    ∀ p ∈ Text.parts cs layout, p.chars ≠ [] :=
  List.forall_mem_append.mpr
    ⟨Part.chars_ne_nil_of_mem_leading, Layout.chars_ne_nil_of_mem_parts h⟩

/-! ## Moving over Parts -/

namespace Reader

/-- Moves over a part, with the newlines of literals counted or not. -/
def cross (inLiterals : Bool) (r : Reader) : Part → Reader
  | .byteOrderMark => r.leap 1
  | .trivia t => r.pass t
  | .lexeme l => r.advance l.chars.length
  | .body text _ => if inLiterals then r.advance (text.length + 1) else r.leap (text.length + 1)

variable {inLiterals : Bool} {r : Reader} {p : Part} {ps : List Part} {rest : List Char}

/-- A part is crossed from its first character to its last. -/
theorem cross_eq_leap (inLiterals : Bool) (r : Reader) (p : Part) :
    (r.cross inLiterals p).behind = (r.leap p.chars.length).behind ∧
      (r.cross inLiterals p).ahead = (r.leap p.chars.length).ahead := by
  cases p with
  | body text q =>
    have hlength : (Part.body text q).chars.length = text.length + 1 := by simp [Part.chars]
    rw [hlength]
    cases inLiterals <;> exact ⟨rfl, rfl⟩
  | _ => exact ⟨rfl, rfl⟩

theorem behind_cross (h : r.ahead = p.chars ++ rest) :
    (r.cross inLiterals p).behind = p.chars.reverse ++ r.behind := by
  rw [(cross_eq_leap inLiterals r p).1, behind_leap, h, List.take_left]

theorem ahead_cross (h : r.ahead = p.chars ++ rest) : (r.cross inLiterals p).ahead = rest := by
  rw [(cross_eq_leap inLiterals r p).2, ahead_leap, h, List.drop_left]

theorem line_cross (h : r.ahead = p.chars ++ rest) :
    (r.cross inLiterals p).line = r.line + p.lineEnds inLiterals := by
  have htake : r.ahead.take p.chars.length = p.chars := by rw [h, List.take_left]
  cases p with
  | byteOrderMark => rfl
  | trivia t => rw [cross, line_pass h, Part.lineEnds, Nat.add_assoc]
  | lexeme l => exact congrArg (fun crossed => r.line + crossed.count '\n') htake
  | body text q =>
    have hlength : (Part.body text q).chars.length = text.length + 1 := by simp [Part.chars]
    rw [hlength] at htake
    cases inLiterals with
    | true => exact congrArg (fun crossed => r.line + crossed.count '\n') htake
    | false => rfl

theorem behind_foldl_cross (h : r.ahead = ps.flatMap Part.chars ++ rest) :
    (ps.foldl (cross inLiterals) r).behind = (ps.flatMap Part.chars).reverse ++ r.behind := by
  induction ps generalizing r with
  | nil => rfl
  | cons p ps ih =>
    rw [List.flatMap_cons, List.append_assoc] at h
    rw [List.foldl_cons, ih (ahead_cross h), behind_cross h, List.flatMap_cons, List.reverse_append,
      List.append_assoc]

theorem ahead_foldl_cross (h : r.ahead = ps.flatMap Part.chars ++ rest) :
    (ps.foldl (cross inLiterals) r).ahead = rest := by
  induction ps generalizing r with
  | nil => exact h
  | cons p ps ih =>
    rw [List.flatMap_cons, List.append_assoc] at h
    exact ih (ahead_cross h)

theorem line_foldl_cross (h : r.ahead = ps.flatMap Part.chars ++ rest) :
    (ps.foldl (cross inLiterals) r).line = r.line + (ps.map (Part.lineEnds inLiterals)).sum := by
  induction ps generalizing r with
  | nil => rfl
  | cons p ps ih =>
    rw [List.flatMap_cons, List.append_assoc] at h
    rw [List.foldl_cons, ih (ahead_cross h), line_cross h, List.map_cons, List.sum_cons,
      Nat.add_assoc]

theorem foldl_cross_trivia (gap : List Trivia) :
    (gap.map Part.trivia).foldl (cross inLiterals) r = gap.foldl pass r := by
  rw [List.foldl_map]
  rfl

end Reader

end SchemaLex
