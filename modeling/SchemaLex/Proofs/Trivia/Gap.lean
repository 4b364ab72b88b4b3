-- SUMMARY: Which characters make up a gap, and that reading a gap takes exactly those.
import Mathlib.Data.List.TakeWhile
import SchemaLex.Trivia

/-!
# Gaps

An item of a gap fits in front of a text if it ends where it should: a line comment at the first
newline or at the end of the text, a block comment at the first closing mark. `read?_eq_some_iff`
and `gap_eq_iff` say that reading finds the items that fit and no others.
-/

namespace SchemaLex.Trivia

/-- The closing mark of a block comment occurs nowhere in the text. -/
def NoClosingMark (cs : List Char) : Prop := ¬ ['*', '/'] <:+: cs

/-- The item may stand in front of `rest`. -/
def Fits : Trivia → List Char → Prop
  | blank c, _ => Text.isBlank c
  | line body true, _ => '\n' ∉ body
  | line body false, rest => '\n' ∉ body ∧ rest = []
  | block body, _ => NoClosingMark body

/-- The items may stand one behind the other in front of `rest`. -/
def IsGap : List Trivia → List Char → Prop
  | [], _ => True
  | t :: ts, rest => t.Fits (ts.flatMap chars ++ rest) ∧ IsGap ts rest

/-- A block comment opens at the front of the text. -/
def OpensBlock (cs : List Char) : Prop := ['/', '*'] <+: cs

instance (cs : List Char) : Decidable (OpensBlock cs) := inferInstanceAs (Decidable (_ <+: _))

/-! ## Block Comments -/

theorem splitBlock?_eq_some_of_noClosingMark {body : List Char} (h : NoClosingMark body)
    (rest : List Char) : splitBlock? (body ++ '*' :: '/' :: rest) = some (body, rest) := by
  induction body with
  | nil => rfl
  | cons c cs ih =>
    have hcs : NoClosingMark cs := fun hinfix => h (List.infix_cons_iff.mpr (.inr hinfix))
    rw [List.cons_append, splitBlock?, ih hcs]
    · rfl
    · -- A mark here would be inside the body or reach over its last star.
      intro tail hc htail
      cases cs with
      | nil => simp at htail
      | cons d ds =>
        obtain ⟨rfl, -⟩ := List.cons.inj htail
        exact h ⟨[], ds, by rw [hc]; rfl⟩

theorem noClosingMark_of_splitBlock? {cs body rest : List Char}
    (h : splitBlock? cs = some (body, rest)) : NoClosingMark body := by
  induction cs using splitBlock?.induct generalizing body with
  | case1 => simp [splitBlock?] at h
  | case2 cs =>
    simp only [splitBlock?, Option.some.injEq, Prod.mk.injEq] at h
    obtain ⟨rfl, -⟩ := h
    simp [NoClosingMark]
  | case3 c cs hne ih =>
    rw [splitBlock?] at h
    · simp only [Option.map_eq_some_iff, Prod.mk.injEq] at h
      obtain ⟨⟨b, r⟩, hsplit, rfl, rfl⟩ := h
      intro hinfix
      rcases List.infix_cons_iff.mp hinfix with hprefix | hinside
      · obtain ⟨rfl, hb⟩ := List.cons_prefix_cons.mp hprefix
        obtain ⟨after, rfl⟩ := hb
        exact hne (after ++ '*' :: '/' :: r) rfl (eq_of_splitBlock? hsplit)
      · exact ih hsplit hinside
    · exact hne

theorem noClosingMark_of_splitBlock?_eq_none {cs : List Char} (h : splitBlock? cs = none) :
    NoClosingMark cs := by
  induction cs using splitBlock?.induct with
  | case1 => simp [NoClosingMark]
  | case2 cs => simp [splitBlock?] at h
  | case3 c cs hne ih =>
    rw [splitBlock?, Option.map_eq_none_iff] at h
    · intro hinfix
      rcases List.infix_cons_iff.mp hinfix with hprefix | hinside
      · obtain ⟨rfl, after, rfl⟩ := List.cons_prefix_cons.mp hprefix
        exact hne after rfl rfl
      · exact ih h hinside
    · exact hne

theorem splitBlock?_eq_none_iff {cs : List Char} : splitBlock? cs = none ↔ NoClosingMark cs := by
  constructor
  · exact noClosingMark_of_splitBlock?_eq_none
  · intro h
    cases hsplit : splitBlock? cs with
    | none => rfl
    | some found => exact absurd ⟨found.1, found.2, by simp [eq_of_splitBlock? hsplit]⟩ h

/-! ## Line Comments -/

theorem splitLine_of_newline {body : List Char} (h : '\n' ∉ body) (rest : List Char) :
    splitLine (body ++ '\n' :: rest) = (line body true, rest) := by
  have hplain : ∀ c ∈ body, (c != '\n') = true := fun c hc => by
    simpa using fun heq : c = '\n' => h (heq ▸ hc)
  unfold splitLine
  rw [List.dropWhile_append_of_pos hplain, List.takeWhile_append_of_pos hplain]
  simp

theorem splitLine_of_end {body : List Char} (h : '\n' ∉ body) :
    splitLine body = (line body false, []) := by
  have hplain : ∀ c ∈ body, (c != '\n') = true := fun c hc => by
    simpa using fun heq : c = '\n' => h (heq ▸ hc)
  unfold splitLine
  rw [List.dropWhile_eq_nil_iff.mpr hplain, List.takeWhile_eq_self_iff.mpr hplain]

theorem fits_splitLine (cs : List Char) : (splitLine cs).1.Fits (splitLine cs).2 := by
  have hplain : '\n' ∉ cs.takeWhile (· != '\n') := fun hmem => by
    simpa using List.all_eq_true.mp (List.all_takeWhile (p := (· != '\n')) (l := cs)) _ hmem
  unfold splitLine
  split
  · exact ⟨hplain, rfl⟩
  · exact hplain

/-! ## One Item -/

/-- No comment starts at a character other than the slash of a comment. -/
theorem read?_of_no_comment {c : Char} {cs : List Char}
    (h : c = '/' → cs.head? ≠ some '/' ∧ cs.head? ≠ some '*') :
    read? (c :: cs) = if Text.isBlank c then some (blank c, cs) else none := by
  unfold read?
  split
  · next heq => simp at heq
  · next tail heq =>
    obtain ⟨hc, rfl⟩ := List.cons.inj heq
    exact absurd rfl (h hc).1
  · next tail heq =>
    obtain ⟨hc, rfl⟩ := List.cons.inj heq
    exact absurd rfl (h hc).2
  · next heq =>
    obtain ⟨rfl, rfl⟩ := List.cons.inj heq
    rfl

theorem Fits.newline_not_mem {body rest : List Char} {ended : Bool}
    (h : (line body ended).Fits rest) : '\n' ∉ body := by
  cases ended with
  | true => exact h
  | false => exact h.1

theorem read?_chars_append {t : Trivia} {rest : List Char} (h : t.Fits rest) :
    read? (t.chars ++ rest) = some (t, rest) := by
  cases t with
  | blank c =>
    have hblank : Text.isBlank c := h
    have hslash : c ≠ '/' := by
      rintro rfl
      exact absurd hblank (by decide)
    exact (read?_of_no_comment fun hc => absurd hc hslash).trans (if_pos hblank)
  | line body ended =>
    cases ended with
    | true =>
      have hchars : (line body true).chars ++ rest = '/' :: '/' :: (body ++ '\n' :: rest) := by
        simp [chars]
      rw [hchars]
      exact congrArg some (splitLine_of_newline h rest)
    | false =>
      obtain ⟨hbody, rfl⟩ := h
      have hchars : (line body false).chars ++ [] = '/' :: '/' :: body := by simp [chars]
      rw [hchars]
      exact congrArg some (splitLine_of_end hbody)
  | block body =>
    have hchars : (block body).chars ++ rest = '/' :: '*' :: (body ++ '*' :: '/' :: rest) := by
      simp [chars]
    rw [hchars]
    exact Option.map_eq_some_iff.mpr ⟨_, splitBlock?_eq_some_of_noClosingMark h rest, rfl⟩

theorem fits_of_read? {cs rest : List Char} {t : Trivia} (h : read? cs = some (t, rest)) :
    t.Fits rest := by
  unfold read? at h
  split at h
  · simp at h
  · next cs =>
    have hfits := fits_splitLine cs
    rwa [Option.some.inj h] at hfits
  · next cs =>
    simp only [Option.map_eq_some_iff, Prod.mk.injEq] at h
    obtain ⟨⟨b, r⟩, hsplit, rfl, -⟩ := h
    exact noClosingMark_of_splitBlock? hsplit
  · next c cs _ _ =>
    split at h
    · next hblank =>
      obtain ⟨rfl, -⟩ := Prod.mk.inj (Option.some.inj h)
      exact hblank
    · simp at h

/-- Reading takes the item that fits in front of the rest. -/
theorem read?_eq_some_iff {cs rest : List Char} {t : Trivia} :
    read? cs = some (t, rest) ↔ cs = t.chars ++ rest ∧ t.Fits rest := by
  constructor
  · intro h
    exact ⟨eq_of_read? h, fits_of_read? h⟩
  · rintro ⟨rfl, h⟩
    exact read?_chars_append h

/-- Behind a gap, the text is at its end, in a block comment that stays open, or at a character
    that is neither white space nor the slash of a comment. -/
theorem read?_eq_none_iff {cs : List Char} :
    read? cs = none ↔
      cs = [] ∨ (∃ body, cs = '/' :: '*' :: body ∧ NoClosingMark body) ∨
        ∃ c rest, cs = c :: rest ∧ Text.isBlank c = false ∧
          (c = '/' → rest.head? ≠ some '/' ∧ rest.head? ≠ some '*') := by
  constructor
  · intro h
    unfold read? at h
    split at h
    · exact .inl rfl
    · simp at h
    · next cs =>
      rw [Option.map_eq_none_iff] at h
      exact .inr (.inl ⟨cs, rfl, noClosingMark_of_splitBlock?_eq_none h⟩)
    · next c cs hline hblock =>
      refine .inr (.inr ⟨c, cs, rfl, ?_, ?_⟩)
      · simpa using h
      · intro hc
        constructor
        · intro hhead
          obtain ⟨tail, rfl⟩ := List.head?_eq_some_iff.mp hhead
          exact hline tail hc rfl
        · intro hhead
          obtain ⟨tail, rfl⟩ := List.head?_eq_some_iff.mp hhead
          exact hblock tail hc rfl
  · rintro (rfl | ⟨body, rfl, hbody⟩ | ⟨c, rest, rfl, hblank, hslash⟩)
    · rfl
    · exact Option.map_eq_none_iff.mpr (splitBlock?_eq_none_iff.mpr hbody)
    · rw [read?_of_no_comment hslash, hblank]
      rfl

theorem not_isBlank_of_read?_eq_none {c : Char} {cs : List Char} (h : read? (c :: cs) = none) :
    Text.isBlank c = false := by
  rcases read?_eq_none_iff.mp h with hnil | ⟨body, hopen, -⟩ | ⟨d, rest, hcons, hblank, -⟩
  · cases hnil
  · obtain ⟨rfl, -⟩ := List.cons.inj hopen
    decide
  · obtain ⟨rfl, -⟩ := List.cons.inj hcons
    exact hblank

theorem head?_ne_star_of_not_opensBlock {c : Char} {cs : List Char} (h : ¬ OpensBlock (c :: cs))
    (hc : c = '/') : cs.head? ≠ some '*' := by
  subst hc
  intro hstar
  obtain ⟨body, rfl⟩ := List.head?_eq_some_iff.mp hstar
  exact h ⟨body, rfl⟩

/-! ## All Items -/

theorem gap_append {ts : List Trivia} {rest : List Char} (h : IsGap ts rest)
    (hend : read? rest = none) : gap (ts.flatMap chars ++ rest) = (ts, rest) := by
  induction ts with
  | nil => exact gap_of_read?_eq_none hend
  | cons t ts ih =>
    have hread := read?_chars_append h.1
    rw [List.flatMap_cons, List.append_assoc, gap_of_read?_eq_some hread, ih h.2]

/-- Two gaps in front of one text are the same if no item starts where they end. -/
theorem IsGap.unique {ts ts' : List Trivia} {rest rest' : List Char} (h : IsGap ts rest)
    (hend : read? rest = none) (h' : IsGap ts' rest') (hend' : read? rest' = none)
    (heq : ts.flatMap chars ++ rest = ts'.flatMap chars ++ rest') : ts = ts' ∧ rest = rest' := by
  have hgap := gap_append h hend
  rw [heq, gap_append h' hend'] at hgap
  obtain ⟨rfl, rfl⟩ := Prod.mk.inj hgap
  exact ⟨rfl, rfl⟩

theorem IsGap.of_append {ts us : List Trivia} {rest : List Char} (h : IsGap (ts ++ us) rest) :
    IsGap us rest := by
  induction ts with
  | nil => exact h
  | cons t ts ih => exact ih h.2

theorem IsGap.of_append_left {ts us : List Trivia} {rest : List Char} (h : IsGap (ts ++ us) rest) :
    IsGap ts (us.flatMap chars ++ rest) := by
  induction ts with
  | nil => trivial
  | cons t ts ih => exact ⟨by simpa using h.1, ih h.2⟩

/-- A line comment that something follows ends with a newline. -/
theorem IsGap.ended {body : List Char} {ended : Bool} {ts : List Trivia} {rest : List Char}
    (h : IsGap (line body ended :: ts) rest) (hts : ts ≠ []) : ended = true := by
  cases ended with
  | true => rfl
  | false =>
    obtain ⟨t, us, rfl⟩ := List.exists_cons_of_ne_nil hts
    exact absurd (List.append_eq_nil_iff.mp h.1.2).1 (by simp [chars_ne_nil])

theorem isGap_gap (cs : List Char) : IsGap (gap cs).1 (gap cs).2 := by
  fun_induction gap cs with
  | case1 => trivial
  | case2 cs t rest h hlt later ih =>
    refine ⟨?_, ih⟩
    rw [flatMap_chars_gap]
    exact fits_of_read? h

/-- Reading a gap takes the items that fit, up to a place where none does. -/
theorem gap_eq_iff {cs rest : List Char} {ts : List Trivia} :
    gap cs = (ts, rest) ↔ cs = ts.flatMap chars ++ rest ∧ IsGap ts rest ∧ read? rest = none := by
  constructor
  · intro h
    have hchars := flatMap_chars_gap cs
    have hgap := isGap_gap cs
    have hend := read?_gap cs
    rw [h] at hchars hgap hend
    exact ⟨hchars.symm, hgap, hend⟩
  · rintro ⟨rfl, hgap, hend⟩
    exact gap_append hgap hend

/-! ## Blank Items -/

theorem gap_nil : gap [] = ([], []) := gap_of_read?_eq_none rfl

theorem gap_cons_of_isBlank {c : Char} (hc : Text.isBlank c) (cs : List Char) :
    gap (c :: cs) = (blank c :: (gap cs).1, (gap cs).2) :=
  gap_of_read?_eq_some (read?_eq_some_iff.mpr ⟨rfl, hc⟩)

theorem flatMap_chars_blanks (cs : List Char) : (cs.map blank).flatMap chars = cs := by
  induction cs with
  | nil => rfl
  | cons c cs ih => exact congrArg (c :: ·) ih

theorem IsGap.blanks_append {cs : List Char} {ts : List Trivia} {rest : List Char}
    (hcs : ∀ c ∈ cs, Text.isBlank c) (h : IsGap ts rest) : IsGap (cs.map blank ++ ts) rest := by
  induction cs with
  | nil => exact h
  | cons c cs ih =>
    exact ⟨hcs c List.mem_cons_self, ih fun d hd => hcs d (List.mem_cons_of_mem c hd)⟩

end SchemaLex.Trivia
