-- SUMMARY: Which quotes backslashes protect: a literal ends at its first unprotected quote.
import SchemaLex.Literal

/-!
# Closing a Literal

The search for the closing quote steps over a backslash together with the character behind it. Seen
from a quote this is a count: it is protected when the backslashes directly in front of it are odd
in number. `split?_eq_some_iff` and `split?_eq_none_iff` say what the search finds in these terms.
-/

namespace SchemaLex.Literal

/-- The number of backslashes at the end of a text. -/
def backslashes (before : List Char) : Nat := (before.reverse.takeWhile (· == '\\')).length

/-- The text protects the character behind it. -/
def Protects (before : List Char) : Prop := backslashes before % 2 = 1

instance (before : List Char) : Decidable (Protects before) :=
  inferInstanceAs (Decidable (_ = _))

/-- Every quote `q` of the text is protected. -/
def AllProtected (q : Quote) (cs : List Char) : Prop :=
  ∀ before after, cs = before ++ q.char :: after → Protects before

/-- The body of a literal in the quotes `q`: the first quote that it leaves unprotected is the one
    behind it. -/
structure IsBody (q : Quote) (body : List Char) : Prop where
  inside : AllProtected q body
  behind : ¬ Protects body

/-! ## Counting Backslashes -/

private theorem backslashes_append (xs ys : List Char) :
    backslashes (xs ++ ys) =
      if backslashes ys = ys.length then ys.length + backslashes xs else backslashes ys := by
  unfold backslashes
  rw [List.reverse_append, List.takeWhile_append, List.length_reverse]
  split <;> simp

theorem not_protects_nil : ¬ Protects [] := by decide

/-- A character in front that is no backslash changes nothing. -/
theorem protects_cons {c : Char} (hc : c ≠ '\\') (cs : List Char) :
    Protects (c :: cs) ↔ Protects cs := by
  have hnone : backslashes [c] = 0 := by simp [backslashes, hc]
  have happend := backslashes_append [c] cs
  rw [List.singleton_append, hnone] at happend
  unfold Protects
  rw [happend]
  split <;> omega

/-- An escape in front changes nothing: it has two backslashes or ends in no backslash. -/
theorem protects_escape (c : Char) (cs : List Char) :
    Protects ('\\' :: c :: cs) ↔ Protects cs := by
  have hpair : backslashes ['\\', c] = 0 ∨ backslashes ['\\', c] = 2 := by
    by_cases hc : c = '\\'
    · exact .inr (by rw [hc]; decide)
    · exact .inl (by simp [backslashes, hc])
  have happend := backslashes_append ['\\', c] cs
  unfold Protects
  rw [show '\\' :: c :: cs = ['\\', c] ++ cs from rfl, happend]
  split <;> omega

theorem protects_backslash : Protects ['\\'] := by decide

/-! ## Texts Built from the Front -/

theorem allProtected_nil (q : Quote) : AllProtected q [] := by
  intro before after h
  simp at h

theorem allProtected_lone_backslash (q : Quote) : AllProtected q ['\\'] := by
  intro before after h
  cases before with
  | nil => exact absurd (List.cons.inj h).1.symm q.char_ne_backslash
  | cons c cs => simp at h

theorem allProtected_cons {q : Quote} {c : Char} {cs : List Char} (hc : c ≠ '\\')
    (hq : c ≠ q.char) : AllProtected q (c :: cs) ↔ AllProtected q cs := by
  constructor
  · intro h before after heq
    exact (protects_cons hc before).mp (h (c :: before) after (by rw [heq, List.cons_append]))
  · intro h before after heq
    cases before with
    | nil => exact absurd (List.cons.inj heq).1 hq
    | cons d before =>
      obtain ⟨rfl, rfl⟩ := List.cons.inj heq
      exact (protects_cons hc before).mpr (h before after rfl)

theorem allProtected_escape {q : Quote} {c : Char} {cs : List Char} :
    AllProtected q ('\\' :: c :: cs) ↔ AllProtected q cs := by
  constructor
  · intro h before after heq
    exact (protects_escape c before).mp
      (h ('\\' :: c :: before) after (by rw [heq, List.cons_append, List.cons_append]))
  · intro h before after heq
    match before with
    | [] => exact absurd (List.cons.inj heq).1.symm q.char_ne_backslash
    | [d] =>
      obtain ⟨rfl, -⟩ := List.cons.inj heq
      exact protects_backslash
    | d :: e :: before =>
      obtain ⟨rfl, htail⟩ := List.cons.inj heq
      obtain ⟨rfl, rfl⟩ := List.cons.inj htail
      exact (protects_escape c before).mpr (h before after rfl)

theorem isBody_nil (q : Quote) : IsBody q [] := ⟨allProtected_nil q, not_protects_nil⟩

theorem isBody_cons {q : Quote} {c : Char} {cs : List Char} (hc : c ≠ '\\') (hq : c ≠ q.char) :
    IsBody q (c :: cs) ↔ IsBody q cs := by
  constructor
  · rintro ⟨hinside, hbehind⟩
    exact ⟨(allProtected_cons hc hq).mp hinside, mt (protects_cons hc cs).mpr hbehind⟩
  · rintro ⟨hinside, hbehind⟩
    exact ⟨(allProtected_cons hc hq).mpr hinside, mt (protects_cons hc cs).mp hbehind⟩

theorem isBody_escape {q : Quote} {c : Char} {cs : List Char} :
    IsBody q ('\\' :: c :: cs) ↔ IsBody q cs := by
  constructor
  · rintro ⟨hinside, hbehind⟩
    exact ⟨allProtected_escape.mp hinside, mt (protects_escape c cs).mpr hbehind⟩
  · rintro ⟨hinside, hbehind⟩
    exact ⟨allProtected_escape.mpr hinside, mt (protects_escape c cs).mp hbehind⟩

/-- Where two bodies stand in front of one text, neither can be the longer one. -/
theorem IsBody.unique {q : Quote} {body body' rest rest' : List Char} (h : IsBody q body)
    (h' : IsBody q body') (heq : body ++ q.char :: rest = body' ++ q.char :: rest') :
    body = body' ∧ rest = rest' := by
  rcases List.append_eq_append_iff.mp heq with ⟨more, hbody, hrest⟩ | ⟨more, hbody, hrest⟩
  · cases more with
    | nil => simp_all
    | cons c cs =>
      obtain ⟨rfl, -⟩ := List.cons.inj hrest
      exact absurd (h'.inside body cs hbody) h.behind
  · cases more with
    | nil => simp_all
    | cons c cs =>
      obtain ⟨rfl, -⟩ := List.cons.inj hrest
      exact absurd (h.inside body' cs hbody) h'.behind

/-! ## What the Search Finds -/

theorem allProtected_of_split?_eq_none {q : Quote} {cs : List Char} (h : split? q cs = none) :
    AllProtected q cs := by
  induction cs using split?.induct q with
  | case1 => exact allProtected_nil q
  | case2 c cs ih =>
    rw [split?, Option.map_eq_none_iff] at h
    exact allProtected_escape.mpr (ih h)
  | case3 cs hne => simp [split?] at h
  | case4 c cs hne hq ih =>
    rw [split?, if_neg hq, Option.map_eq_none_iff] at h
    · by_cases hc : c = '\\'
      · -- The text ends behind this backslash, else it would open an escape.
        cases cs with
        | nil => exact hc ▸ allProtected_lone_backslash q
        | cons d ds => exact absurd rfl (hne d ds hc)
      · exact (allProtected_cons hc hq).mpr (ih h)
    · exact hne

theorem isBody_of_split? {q : Quote} {cs body rest : List Char}
    (h : split? q cs = some (body, rest)) : IsBody q body := by
  induction cs using split?.induct q generalizing body with
  | case1 => simp [split?] at h
  | case2 c cs ih =>
    simp only [split?, Option.map_eq_some_iff, Prod.mk.injEq] at h
    obtain ⟨⟨b, r⟩, hsplit, rfl, rfl⟩ := h
    exact isBody_escape.mpr (ih hsplit)
  | case3 cs hne =>
    rw [split?, if_pos rfl] at h
    · obtain ⟨rfl, -⟩ := Prod.mk.inj (Option.some.inj h)
      exact isBody_nil q
    · exact hne
  | case4 c cs hne hq ih =>
    rw [split?, if_neg hq] at h
    · simp only [Option.map_eq_some_iff, Prod.mk.injEq] at h
      obtain ⟨⟨b, r⟩, hsplit, rfl, rfl⟩ := h
      have hc : c ≠ '\\' := by
        rintro rfl
        cases cs with
        | nil => simp [split?] at hsplit
        | cons d ds => exact hne d ds rfl rfl
      exact (isBody_cons hc hq).mpr (ih hsplit)
    · exact hne

/-- The search finds the body in front of the first unprotected quote. -/
theorem split?_eq_some_iff {q : Quote} {cs body rest : List Char} :
    split? q cs = some (body, rest) ↔ cs = body ++ q.char :: rest ∧ IsBody q body := by
  constructor
  · intro h
    exact ⟨eq_of_split? h, isBody_of_split? h⟩
  · rintro ⟨rfl, hbody⟩
    cases hsplit : split? q (body ++ q.char :: rest) with
    | none =>
      have hall := allProtected_of_split?_eq_none hsplit
      exact absurd (hall body rest rfl) hbody.behind
    | some found =>
      obtain ⟨rfl, rfl⟩ := hbody.unique (isBody_of_split? hsplit) (eq_of_split? hsplit)
      rfl

/-- The search finds nothing exactly if every quote is protected. -/
theorem split?_eq_none_iff {q : Quote} {cs : List Char} :
    split? q cs = none ↔ AllProtected q cs := by
  constructor
  · exact allProtected_of_split?_eq_none
  · intro hall
    cases hsplit : split? q cs with
    | none => rfl
    | some found =>
      have hbody := isBody_of_split? hsplit
      exact absurd (hall found.1 found.2 (eq_of_split? hsplit)) hbody.behind

end SchemaLex.Literal
