-- SUMMARY: Where a literal ends: the search for the end and the decoding see the same escapes.
import SchemaLex.Caret.Scan
import SchemaLex.Proofs.Literal.Signs
import SchemaLex.Proofs.Session.Scanning

/-!
# Literal Bodies

A literal ends at the first quote of its kind with an even number of backslashes directly in front
of it. The byte-wise search for that quote carries a flag from character to character; at each place
the flag tells whether the text so far protects the next character. Decoding steps over two
characters at an escape. On a body that the search has found the two agree on every backslash:
`scanBody_closes`.
-/

namespace SchemaLex

namespace Literal

/-- The character at place `i` of a text behind an opening quote closes the literal: it is the same
    quote, and the backslashes directly in front of it are even in number. -/
structure ClosesAt (q : Quote) (cs : List Char) (i : Nat) : Prop where
  quote : cs[i]? = some q.char
  even : backslashes (cs.take i) % 2 = 0

variable {q : Quote} {cs : List Char} {i : Nat}

theorem not_protects_iff {before : List Char} : ¬ Protects before ↔ backslashes before % 2 = 0 := by
  unfold Protects
  omega

theorem closesAt_length_iff {before after : List Char} :
    ClosesAt q (before ++ q.char :: after) before.length ↔ ¬ Protects before := by
  rw [not_protects_iff]
  constructor
  · intro h
    have heven := h.even
    rwa [List.take_left] at heven
  · intro heven
    exact ⟨by simp, by rwa [List.take_left]⟩

/-- The text in front of a closing quote, the quote and the rest. -/
theorem ClosesAt.exists_append (h : ClosesAt q cs i) :
    ∃ before after, cs = before ++ q.char :: after ∧ before.length = i := by
  obtain ⟨hlt, hquote⟩ := List.getElem?_eq_some_iff.mp h.quote
  refine ⟨cs.take i, cs.drop (i + 1), ?_, List.length_take_of_le (Nat.le_of_lt hlt)⟩
  rw [← hquote, ← List.drop_eq_getElem_cons hlt, List.take_append_drop]

theorem allProtected_iff : AllProtected q cs ↔ ¬ ∃ i, ClosesAt q cs i := by
  constructor
  · rintro hall ⟨i, hcloses⟩
    obtain ⟨before, after, rfl, rfl⟩ := hcloses.exists_append
    exact closesAt_length_iff.mp hcloses (hall before after rfl)
  · intro hnone before after heq
    subst heq
    exact not_not.mp fun hfree => hnone ⟨before.length, closesAt_length_iff.mpr hfree⟩

/-- The search finds the first closing quote. -/
theorem split?_of_closesAt (h : ClosesAt q cs i) (hfirst : ∀ j < i, ¬ ClosesAt q cs j) :
    split? q cs = some (cs.take i, cs.drop (i + 1)) := by
  obtain ⟨body, rest, rfl, rfl⟩ := h.exists_append
  have hinside : AllProtected q body := by
    intro before after heq
    refine not_not.mp fun hfree => hfirst before.length ?_ ?_
    · simp [heq]
    · rw [heq, List.append_assoc, List.cons_append]
      exact closesAt_length_iff.mpr hfree
  have hsplit : split? q (body ++ q.char :: rest) = some (body, rest) :=
    split?_eq_some_iff.mpr ⟨rfl, hinside, closesAt_length_iff.mp h⟩
  simpa using hsplit

end Literal

namespace Caret

variable {q : Quote} {cs : List Char} {i : Nat}

/-- A character that does not close the literal passes the flag on. -/
theorem closingOffset?_cons {flag : Bool} {c : Char} (h : flag = false → c ≠ q.char) :
    closingOffset? q flag (c :: cs) =
      (closingOffset? q (!flag && c == '\\') cs).map (c.utf8Size + ·) := by
  cases flag with
  | true => rfl
  | false =>
    rw [closingOffset?, if_neg (h rfl)]
    by_cases hc : c = '\\'
    · rw [if_pos hc, hc]
      rfl
    · rw [if_neg hc, beq_false_of_ne hc]
      rfl

/-- At each place up to the closing quote the flag tells whether the text in front of the place
    protects the character there. -/
theorem closingOffset?_take_drop (hopen : ∀ j < i, ¬ Literal.ClosesAt q cs j)
    (hle : i ≤ cs.length) :
    closingOffset? q false cs =
      (closingOffset? q (decide (Literal.Protects (cs.take i))) (cs.drop i)).map
        (Text.byteSize (cs.take i) + ·) := by
  induction i with
  | zero =>
    rw [List.take_zero, List.drop_zero, decide_eq_false Literal.not_protects_nil]
    simp
  | succ i ih =>
    have hlt : i < cs.length := hle
    have hpass : decide (Literal.Protects (cs.take i)) = false → cs[i] ≠ q.char := by
      intro hfree hquote
      have heven := Literal.not_protects_iff.mp (of_decide_eq_false hfree)
      refine hopen i (Nat.lt_succ_self i) ⟨?_, heven⟩
      rw [List.getElem?_eq_getElem hlt, hquote]
    have hflag : (!decide (Literal.Protects (cs.take i)) && cs[i] == '\\') =
        decide (Literal.Protects (cs.take (i + 1))) := by
      rw [List.take_succ_eq_append_getElem hlt, Bool.eq_iff_iff, decide_eq_true_iff,
        Literal.protects_append_singleton]
      simp [and_comm]
    have hsize : Text.byteSize (cs.take (i + 1)) = Text.byteSize (cs.take i) + cs[i].utf8Size := by
      rw [List.take_succ_eq_append_getElem hlt, Text.byteSize_append]
      rfl
    rw [ih (fun j hj => hopen j (Nat.lt_succ_of_lt hj)) (Nat.le_of_lt hlt),
      List.drop_eq_getElem_cons hlt, closingOffset?_cons hpass, hflag, Option.map_map, hsize]
    refine congrArg (Option.map · _) (funext fun size => ?_)
    exact (Nat.add_assoc _ _ _).symm

end Caret

namespace Session

open Literal in
/-- A literal ends at the first quote of its kind with an even number of backslashes directly in
    front of it, and stays open exactly if there is none. On the way there the flag of the search
    tells at each place whether the backslashes protect it. In the body the protected characters are
    those that decoding takes as the second ones of its escapes, and no backslash is left over. -/
theorem scanBody_closes (s : Session) (q : Quote) :
    ((s.scanBody q).1 = .error (.openLiteral s.line) ↔ ¬ ∃ i, ClosesAt q s.reader.ahead i) ∧
      ∀ i, ClosesAt q s.reader.ahead i → (∀ j < i, ¬ ClosesAt q s.reader.ahead j) →
        let body := s.reader.ahead.take i
        s.scanBody q = (.ok (some (String.ofList (decode body))), s.takeBody q body) ∧
          (s.takeBody q body).reader.ahead = s.reader.ahead.drop (i + 1) ∧
          (∀ j ≤ i, Caret.closingOffset? q false s.reader.ahead =
            (Caret.closingOffset? q (decide (Protects (body.take j))) (s.reader.ahead.drop j)).map
              (Text.byteSize (body.take j) + ·)) ∧
          (signs body).flatMap Sign.chars = body ∧
          decode body = (signs body).flatMap Sign.value ∧
          (signs body).flatMap Sign.marks = protectedMarks body ∧ .lone ∉ signs body := by
  constructor
  · rw [← allProtected_iff, ← split?_eq_none_iff]
    constructor
    · intro hfault
      cases hsplit : split? q s.reader.ahead with
      | none => rfl
      | some found =>
        rw [scanBody_of_some hsplit] at hfault
        cases hfault
    · intro hnone
      rw [scanBody_of_none hnone]
      rfl
  · intro i hcloses hfirst body
    have hlt : i < s.reader.ahead.length := (List.getElem?_eq_some_iff.mp hcloses.quote).1
    have hlength : body.length = i := List.length_take_of_le (Nat.le_of_lt hlt)
    refine ⟨scanBody_of_some (split?_of_closesAt hcloses hfirst), ?_, ?_, flatMap_chars_signs body,
      decode_eq_flatMap body, flatMap_marks_signs body, ?_⟩
    · rw [ahead_takeBody, hlength]
    · intro j hj
      rw [show body.take j = s.reader.ahead.take j by rw [List.take_take, Nat.min_eq_left hj]]
      exact Caret.closingOffset?_take_drop (fun k hk => hfirst k (Nat.lt_of_lt_of_le hk hj))
        (Nat.le_trans hj (Nat.le_of_lt hlt))
    · exact mt (lone_mem_signs_iff body).mp (not_protects_iff.mpr hcloses.even)

end Session

end SchemaLex
