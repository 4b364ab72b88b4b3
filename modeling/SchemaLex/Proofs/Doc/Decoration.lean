-- SUMMARY: The text of a comment by a rule for its lines, stated without the steps that clean them.
import Mathlib.Data.List.Forall2
import SchemaLex.Proofs.Doc.Lines

/-!
# Decoration

Cleaning a line looks at its front step by step. What comes of it is a rule: the longest margin in
front of the line goes, and the white space at both ends of what is left. A margin is a run of stars
and slashes with spaces on both sides or, where every comment is documentation, white space, at most
one star and slashes. The text of a comment has its lines cleaned by this rule, without the empty
ones around them: `normalize_linewise`.
-/

namespace SchemaLex

namespace Text

variable {front text back cs : List Char} {ls kept : List (List Char)}

/-! ## Ends of a Line -/

/-- White space around a text without any at its ends is what trimming drops. -/
theorem trim_append (hfront : ∀ c ∈ front, isBlank c) (hback : ∀ c ∈ back, isBlank c)
    (h : IsTrim text) : trim (front ++ (text ++ back)) = text := by
  have hstart : trimStart (front ++ (text ++ back)) = trimStart (text ++ back) :=
    List.dropWhile_append_of_pos hfront
  cases text with
  | nil =>
    have hnone : trimStart back = [] := List.dropWhile_eq_nil_iff.mpr hback
    rw [trim, hstart, List.nil_append, hnone]
    rfl
  | cons c cs =>
    have hkept : trimStart (c :: cs ++ back) = c :: cs ++ back :=
      trimStart_of_not_isBlank (not_isBlank_of_trimStart h.front) _
    have hreverse : ∀ c ∈ back.reverse, isBlank c := fun c hc => hback c (List.mem_reverse.mp hc)
    rw [trim, hstart, hkept, trimEnd, List.reverse_append, List.dropWhile_append_of_pos hreverse]
    exact h.back

/-- A text is what trimming leaves of it with white space around. -/
theorem exists_trim (cs : List Char) : ∃ front back, cs = front ++ (trim cs ++ back) ∧
    (∀ c ∈ front, isBlank c) ∧ ∀ c ∈ back, isBlank c := by
  refine ⟨cs.takeWhile isBlank, (trimStart cs).rtakeWhile isBlank, ?_,
    fun c hc => List.mem_takeWhile_imp hc, fun c hc => List.mem_rtakeWhile_imp hc⟩
  have hend : trim cs ++ (trimStart cs).rtakeWhile isBlank = trimStart cs :=
    List.rdropWhile_append_rtakeWhile
  rw [hend]
  exact List.takeWhile_append_dropWhile.symm

/-! ## Ends of a List of Lines -/

theorem newline_not_mem_lines {l : List Char} (h : l ∈ lines cs) : '\n' ∉ l := by
  induction cs generalizing l with
  | nil =>
    obtain rfl := List.mem_singleton.mp h
    exact List.not_mem_nil
  | cons c cs ih =>
    rw [lines, List.splitOn_cons_eq_if_modifyHead] at h
    by_cases hc : c = '\n'
    · rw [if_pos (beq_iff_eq.mpr hc)] at h
      rcases List.mem_cons.mp h with rfl | hlater
      · exact List.not_mem_nil
      · exact ih hlater
    · rw [if_neg (by simpa using hc)] at h
      change l ∈ (lines cs).modifyHead (c :: ·) at h
      cases hlines : lines cs with
      | nil =>
        rw [hlines] at h
        cases h
      | cons l' ls =>
        have hall : ∀ k ∈ l' :: ls, '\n' ∉ k := fun k hk => ih (hlines ▸ hk)
        rw [hlines, List.modifyHead_cons] at h
        rcases List.mem_cons.mp h with rfl | hlater
        · simpa [Ne.symm hc] using hall l' List.mem_cons_self
        · exact hall l (List.mem_cons_of_mem _ hlater)

theorem trimLines_append (hfirst : kept.head? ≠ some []) (hlast : kept.getLast? ≠ some [])
    (above below : Nat) :
    trimLines (List.replicate above [] ++ (kept ++ List.replicate below [])) = kept := by
  have hempty (n : Nat) : ∀ l ∈ List.replicate n ([] : List Char), l.isEmpty := by
    intro l hl
    rw [List.eq_of_mem_replicate hl]
    rfl
  rw [trimLines, List.dropWhile_append_of_pos (hempty above), List.rdropWhile]
  cases kept with
  | nil =>
    rw [List.nil_append, List.dropWhile_eq_nil_iff.mpr (hempty below)]
    rfl
  | cons l ls =>
    have hl : ¬ l.isEmpty := fun h => hfirst (congrArg some (List.isEmpty_iff.mp h))
    rw [List.cons_append, List.dropWhile_cons_of_neg hl, ← List.cons_append, List.reverse_append,
      List.reverse_replicate, List.dropWhile_append_of_pos (hempty below)]
    exact List.rdropWhile_eq_self_iff.mpr fun hne h => hlast
      ((List.getLast?_eq_some_getLast hne).trans (congrArg some (List.isEmpty_iff.mp h)))

theorem eq_replicate_of_isEmpty (h : ∀ l ∈ ls, l.isEmpty) :
    ls = List.replicate ls.length [] :=
  List.eq_replicate_iff.mpr ⟨rfl, fun l hl => List.isEmpty_iff.mp (h l hl)⟩

/-- Lines are those that trimming keeps with empty ones around. -/
theorem exists_trimLines (ls : List (List Char)) :
    ∃ above below, ls = List.replicate above [] ++ (trimLines ls ++ List.replicate below []) := by
  have hstart := List.takeWhile_append_dropWhile (p := List.isEmpty) (l := ls)
  have hend := List.rdropWhile_append_rtakeWhile (p := List.isEmpty)
    (l := ls.dropWhile List.isEmpty)
  refine ⟨(ls.takeWhile List.isEmpty).length,
    ((ls.dropWhile List.isEmpty).rtakeWhile List.isEmpty).length, ?_⟩
  rw [← eq_replicate_of_isEmpty fun l hl => List.mem_takeWhile_imp hl,
    ← eq_replicate_of_isEmpty fun l hl => List.mem_rtakeWhile_imp hl, trimLines, hend, hstart]

theorem head?_trimLines (ls : List (List Char)) : (trimLines ls).head? ≠ some [] := by
  intro hhead
  obtain ⟨rest, hcons⟩ := List.head?_eq_some_iff.mp hhead
  have hprefix : trimLines ls <+: ls.dropWhile List.isEmpty := List.rdropWhile_prefix _ _
  obtain ⟨tail, htail⟩ := hcons ▸ hprefix
  have := List.head?_dropWhile_not List.isEmpty ls
  simp [← htail] at this

theorem getLast?_trimLines (ls : List (List Char)) : (trimLines ls).getLast? ≠ some [] := by
  intro hlast
  have hne : trimLines ls ≠ [] := by
    rintro hnil
    rw [hnil] at hlast
    cases hlast
  have hempty : (trimLines ls).getLast hne = [] := by
    rw [List.getLast?_eq_some_getLast hne] at hlast
    exact Option.some.inj hlast
  have hfull : ¬ ((trimLines ls).getLast hne).isEmpty := List.rdropWhile_last_not _ _ hne
  rw [hempty] at hfull
  exact hfull rfl

theorem trimLines_eq_nil_iff : trimLines ls = [] ↔ ∀ l ∈ ls, l = [] := by
  constructor
  · intro hnil
    obtain ⟨above, below, hls⟩ := exists_trimLines ls
    rw [hnil, List.nil_append, List.replicate_append_replicate] at hls
    rw [hls]
    exact fun l hl => List.eq_of_mem_replicate hl
  · intro hempty
    obtain ⟨n, rfl⟩ : ∃ n, ls = List.replicate n [] :=
      ⟨ls.length, List.eq_replicate_iff.mpr ⟨rfl, hempty⟩⟩
    have htrim : trimLines (List.replicate n [] ++ ([] ++ List.replicate 0 [])) = [] :=
      trimLines_append (by simp) (by simp) n 0
    rwa [List.replicate_zero, List.append_nil, List.append_nil] at htrim

theorem unlines_eq_nil_iff (hfirst : ls.head? ≠ some []) : unlines ls = [] ↔ ls = [] := by
  cases ls with
  | nil => simp
  | cons l ls =>
    refine iff_of_false (fun hnil => ?_) (List.cons_ne_nil l ls)
    cases ls with
    | nil => exact hfirst (congrArg some (unlines_singleton l ▸ hnil))
    | cons l' ls =>
      rw [unlines_cons (List.cons_ne_nil _ _)] at hnil
      exact List.cons_ne_nil _ _ (List.append_eq_nil_iff.mp hnil).2

end Text

namespace Doc

/-! ## The Rule -/

/-- What may stand in front of a line as its decoration. -/
inductive IsMargin : Bool → List Char → Prop where
  | marked {front marks back : List Char} (hfront : ∀ c ∈ front, c = ' ') (hne : marks ≠ [])
    (hmarks : ∀ c ∈ marks, c = '*' ∨ c = '/') (hback : ∀ c ∈ back, c = ' ') :
    IsMargin false (front ++ (marks ++ back))
  | every {front star slashes : List Char} (hfront : ∀ c ∈ front, Text.isBlank c)
    (hstar : star = [] ∨ star = ['*']) (hslashes : ∀ c ∈ slashes, c = '/') :
    IsMargin true (front ++ (star ++ slashes))

/-- What the longest margin in front of a line leaves of it, which is all where it has none. -/
inductive Bare (everyComment : Bool) (line : List Char) : List Char → Prop where
  | plain (hnone : ∀ margin rest, line = margin ++ rest → ¬ IsMargin everyComment margin) :
    Bare everyComment line line
  | longest {margin rest : List Char} (heq : line = margin ++ rest)
    (hmargin : IsMargin everyComment margin)
    (hlongest : ∀ margin' rest', line = margin' ++ rest' → IsMargin everyComment margin' →
      margin'.length ≤ margin.length) : Bare everyComment line rest

/-- The line is cleaned to `text`: its longest margin goes, then the white space at both ends. -/
def Cleans (everyComment : Bool) (line text : List Char) : Prop :=
  ∃ front back, Bare everyComment line (front ++ (text ++ back)) ∧
    (∀ c ∈ front, Text.isBlank c) ∧ (∀ c ∈ back, Text.isBlank c) ∧ Text.IsTrim text

/-- A comment with this body has these lines of text: its lines cleaned, without the empty ones in
    front and behind. -/
structure HasLines (everyComment : Bool) (body : List Char) (kept : List (List Char)) : Prop where
  cleaned : ∃ above below, List.Forall₂ (Cleans everyComment) (Text.lines body)
    (List.replicate above [] ++ (kept ++ List.replicate below []))
  first : kept.head? ≠ some []
  last : kept.getLast? ≠ some []

/-! ## Margins -/

/-- Stars or slashes come first in the line, behind spaces at most. -/
def isDecorated (line : List Char) : Bool := (line.dropWhile (· == ' ')).head?.any isDecoration

/-- The line without its margin. -/
def withoutMargin (everyComment : Bool) (line : List Char) : List Char :=
  if everyComment then undecorateAny line else undecorate line

variable {everyComment : Bool} {line rest rest' margin front text : List Char} {c : Char}

theorem isDecoration_iff : isDecoration c ↔ c = '*' ∨ c = '/' := by simp [isDecoration]

theorem undecorate_of_isDecorated (h : isDecorated line) :
    undecorate line =
      ((line.dropWhile (· == ' ')).dropWhile isDecoration).dropWhile (· == ' ') :=
  if_pos h

theorem undecorate_of_not_isDecorated (h : isDecorated line = false) : undecorate line = line :=
  if_neg (Bool.not_eq_true _ ▸ h)

theorem undecorateAny_blank_append (hfront : ∀ c ∈ front, Text.isBlank c) (line : List Char) :
    undecorateAny (front ++ line) = undecorateAny line := by
  have hstart : Text.trimStart (front ++ line) = Text.trimStart line :=
    List.dropWhile_append_of_pos hfront
  rw [undecorateAny, undecorateAny, hstart]

theorem undecorateAny_star (line : List Char) :
    undecorateAny ('*' :: line) = line.dropWhile (· == '/') := rfl

theorem undecorateAny_slash (line : List Char) :
    undecorateAny ('/' :: line) = line.dropWhile (· == '/') := rfl

/-- White space and a star go before the slashes do. -/
theorem exists_undecorateAny (line : List Char) :
    ∃ star inner, (star = [] ∨ star = ['*']) ∧ Text.trimStart line = star ++ inner ∧
      undecorateAny line = inner.dropWhile (· == '/') := by
  by_cases hhead : (Text.trimStart line).head? = some '*'
  · obtain ⟨tail, htail⟩ := List.head?_eq_some_iff.mp hhead
    exact ⟨['*'], tail, .inr rfl, htail, by rw [undecorateAny, htail]; rfl⟩
  · exact ⟨[], Text.trimStart line, .inl rfl, rfl, by simp [undecorateAny, hhead]⟩

theorem suffix_undecorateAny (line : List Char) : undecorateAny line <:+ line := by
  obtain ⟨star, inner, -, hstart, hslashes⟩ := exists_undecorateAny line
  have hinner : inner <:+ Text.trimStart line := hstart ▸ List.suffix_append star inner
  rw [hslashes]
  exact (List.dropWhile_suffix _).trans (hinner.trans (List.dropWhile_suffix _))

/-- What is left behind the spaces of a margin starts with its marks. -/
theorem dropWhile_spaces_marks {marks : List Char} (hfront : ∀ c ∈ front, c = ' ')
    (hne : marks ≠ []) (hmarks : ∀ c ∈ marks, c = '*' ∨ c = '/') (rest : List Char) :
    (front ++ (marks ++ rest)).dropWhile (· == ' ') = marks ++ rest := by
  obtain ⟨c, cs, rfl⟩ := List.exists_cons_of_ne_nil hne
  have hspaces : ∀ c ∈ front, (c == ' ') = true := fun c hc => beq_iff_eq.mpr (hfront c hc)
  rw [List.dropWhile_append_of_pos hspaces, List.cons_append, List.dropWhile_cons_of_neg]
  rcases hmarks c List.mem_cons_self with rfl | rfl <;> decide

/-- Of any margin in front of a line, what goes is at least this margin. -/
theorem suffix_of_isMargin (h : IsMargin everyComment margin) (rest : List Char) :
    withoutMargin everyComment (margin ++ rest) <:+ rest := by
  cases h with
  | @marked front marks back hfront hne hmarks hback =>
    have hdrop := dropWhile_spaces_marks hfront hne hmarks (back ++ rest)
    have hdecorated : isDecorated (front ++ (marks ++ (back ++ rest))) := by
      obtain ⟨c, cs, rfl⟩ := List.exists_cons_of_ne_nil hne
      rw [isDecorated, hdrop]
      exact isDecoration_iff.mpr (hmarks c List.mem_cons_self)
    have hmarks' : ∀ c ∈ marks, isDecoration c := fun c hc => isDecoration_iff.mpr (hmarks c hc)
    rw [List.append_assoc, List.append_assoc]
    change undecorate _ <:+ rest
    rw [undecorate_of_isDecorated hdecorated, hdrop, List.dropWhile_append_of_pos hmarks']
    -- Spaces end the run of marks; without any the run may go on.
    cases back with
    | nil => exact (List.dropWhile_suffix _).trans (List.dropWhile_suffix _)
    | cons c cs =>
      have hspaces : ∀ d ∈ c :: cs, (d == ' ') = true := fun d hd => beq_iff_eq.mpr (hback d hd)
      have hc : ¬ isDecoration c := by rw [hback c List.mem_cons_self]; decide
      rw [List.cons_append, List.dropWhile_cons_of_neg hc, ← List.cons_append,
        List.dropWhile_append_of_pos hspaces]
      exact List.dropWhile_suffix _
  | @every front star slashes hfront hstar hslashes =>
    have hslashes' : ∀ c ∈ slashes, (c == '/') = true := fun c hc =>
      beq_iff_eq.mpr (hslashes c hc)
    rw [List.append_assoc, List.append_assoc]
    change undecorateAny _ <:+ rest
    rw [undecorateAny_blank_append hfront]
    rcases hstar with rfl | rfl
    · cases slashes with
      | nil => exact suffix_undecorateAny rest
      | cons c cs =>
        obtain rfl := hslashes c List.mem_cons_self
        have hcs : ∀ c ∈ cs, (c == '/') = true := fun c hc =>
          hslashes' c (List.mem_cons_of_mem _ hc)
        rw [List.nil_append, List.cons_append, undecorateAny_slash,
          List.dropWhile_append_of_pos hcs]
        exact List.dropWhile_suffix _
    · rw [List.singleton_append, undecorateAny_star, List.dropWhile_append_of_pos hslashes']
      exact List.dropWhile_suffix _

theorem isDecorated_of_isMargin (h : IsMargin false margin) (rest : List Char) :
    isDecorated (margin ++ rest) := by
  cases h with
  | @marked front marks back hfront hne hmarks hback =>
    obtain ⟨c, cs, rfl⟩ := List.exists_cons_of_ne_nil hne
    rw [isDecorated, List.append_assoc, List.append_assoc,
      dropWhile_spaces_marks hfront hne hmarks]
    exact isDecoration_iff.mpr (hmarks c List.mem_cons_self)

/-- What is taken off a line is a margin. -/
theorem exists_isMargin (h : everyComment ∨ isDecorated line) :
    ∃ margin, line = margin ++ withoutMargin everyComment line ∧ IsMargin everyComment margin := by
  cases everyComment with
  | false =>
    have hdecorated : isDecorated line := by simpa using h
    have hspaces := List.takeWhile_append_dropWhile (p := (· == ' ')) (l := line)
    generalize hinner : line.dropWhile (· == ' ') = inner at hspaces
    have hmarks := List.takeWhile_append_dropWhile (p := isDecoration) (l := inner)
    have hback := List.takeWhile_append_dropWhile (p := (· == ' '))
      (l := inner.dropWhile isDecoration)
    refine ⟨line.takeWhile (· == ' ') ++ (inner.takeWhile isDecoration ++
      (inner.dropWhile isDecoration).takeWhile (· == ' ')), ?_, ?_⟩
    · change line = _ ++ undecorate line
      rw [undecorate_of_isDecorated hdecorated, hinner, List.append_assoc, List.append_assoc,
        hback, hmarks, hspaces]
    · refine .marked (fun c hc => ?_) ?_ (fun c hc => ?_) (fun c hc => ?_)
      · simpa using List.mem_takeWhile_imp hc
      · rw [isDecorated, hinner] at hdecorated
        obtain ⟨c, hc, hmark⟩ := (Option.any_eq_true _ _).mp hdecorated
        obtain ⟨tail, rfl⟩ := List.head?_eq_some_iff.mp hc
        rw [List.takeWhile_cons_of_pos hmark]
        exact List.cons_ne_nil _ _
      · exact isDecoration_iff.mp (List.mem_takeWhile_imp hc)
      · simpa using List.mem_takeWhile_imp hc
  | true =>
    have hblank := List.takeWhile_append_dropWhile (p := Text.isBlank) (l := line)
    obtain ⟨star, inner, hstar, hstart, hany⟩ := exists_undecorateAny line
    have hslashes := List.takeWhile_append_dropWhile (p := (· == '/')) (l := inner)
    refine ⟨line.takeWhile Text.isBlank ++ (star ++ inner.takeWhile (· == '/')), ?_, ?_⟩
    · change line = _ ++ undecorateAny line
      rw [hany, List.append_assoc, List.append_assoc, hslashes, ← hstart]
      exact hblank.symm
    · exact .every (fun c hc => List.mem_takeWhile_imp hc) hstar
        fun c hc => by simpa using List.mem_takeWhile_imp hc

theorem bare_withoutMargin (everyComment : Bool) (line : List Char) :
    Bare everyComment line (withoutMargin everyComment line) := by
  by_cases h : everyComment ∨ isDecorated line
  · obtain ⟨margin, heq, hmargin⟩ := exists_isMargin h
    refine .longest heq hmargin fun margin' rest' heq' hmargin' => ?_
    have hsuffix := suffix_of_isMargin hmargin' rest'
    rw [← heq'] at hsuffix
    have hlength := congrArg List.length (heq.symm.trans heq')
    rw [List.length_append, List.length_append] at hlength
    have := hsuffix.length_le
    omega
  · obtain ⟨hmode, hplain⟩ := not_or.mp h
    obtain rfl : everyComment = false := by simpa using hmode
    have hline : withoutMargin false line = line :=
      undecorate_of_not_isDecorated (by simpa using hplain)
    rw [hline]
    refine .plain fun margin rest heq hmargin => hplain ?_
    rw [heq]
    exact isDecorated_of_isMargin hmargin rest

theorem Bare.unique (h : Bare everyComment line rest) (h' : Bare everyComment line rest') :
    rest = rest' := by
  cases h with
  | plain hnone =>
    cases h' with
    | plain => rfl
    | longest heq hmargin => exact absurd hmargin (hnone _ _ heq)
  | longest heq hmargin hlongest =>
    cases h' with
    | plain hnone => exact absurd hmargin (hnone _ _ heq)
    | longest heq' hmargin' hlongest' =>
      have hlength := Nat.le_antisymm (hlongest' _ _ heq hmargin) (hlongest _ _ heq' hmargin')
      exact (List.append_inj (heq.symm.trans heq') hlength).2

theorem cleans_iff : Cleans everyComment line text ↔ text = cleanLine everyComment line := by
  have hclean : cleanLine everyComment line = Text.trim (withoutMargin everyComment line) := rfl
  constructor
  · rintro ⟨front, back, hbare, hfront, hback, htrim⟩
    rw [hclean, ← hbare.unique (bare_withoutMargin everyComment line),
      Text.trim_append hfront hback htrim]
  · rintro rfl
    obtain ⟨front, back, heq, hfront, hback⟩ := Text.exists_trim (withoutMargin everyComment line)
    refine ⟨front, back, ?_, hfront, hback, Text.isTrim_trim _⟩
    rw [hclean, ← heq]
    exact bare_withoutMargin everyComment line

/-! ## Whole Comments -/

theorem forall₂_cleans_iff {ls cleaned : List (List Char)} :
    List.Forall₂ (Cleans everyComment) ls cleaned ↔ cleaned = ls.map (cleanLine everyComment) := by
  constructor
  · intro h
    induction h with
    | nil => rfl
    | cons hline _ ih => rw [cleans_iff.mp hline, ih, List.map_cons]
  · rintro rfl
    exact List.forall₂_map_right_iff.mpr (List.forall₂_same.mpr fun l _ => cleans_iff.mpr rfl)

theorem hasLines_iff {body : List Char} {kept : List (List Char)} :
    HasLines everyComment body kept ↔
      kept = Text.trimLines ((Text.lines body).map (cleanLine everyComment)) := by
  constructor
  · rintro ⟨⟨above, below, hcleaned⟩, hfirst, hlast⟩
    rw [← forall₂_cleans_iff.mp hcleaned, Text.trimLines_append hfirst hlast]
  · rintro rfl
    obtain ⟨above, below, hls⟩ :=
      Text.exists_trimLines ((Text.lines body).map (cleanLine everyComment))
    exact ⟨⟨above, below, forall₂_cleans_iff.mpr hls.symm⟩, Text.head?_trimLines _,
      Text.getLast?_trimLines _⟩

theorem Bare.suffix (h : Bare everyComment line rest) : rest <:+ line := by
  cases h with
  | plain => exact List.suffix_rfl
  | longest heq => exact heq ▸ List.suffix_append _ _

/-- Cleaning brings nothing into a line. -/
theorem mem_of_mem_cleanLine (h : c ∈ cleanLine everyComment line) : c ∈ line := by
  have hcleans : Cleans everyComment line (cleanLine everyComment line) := cleans_iff.mpr rfl
  obtain ⟨front, back, hbare, -⟩ := hcleans
  exact hbare.suffix.subset (List.mem_append_right _ (List.mem_append_left _ h))

theorem exists_of_mem_hasLines {body l : List Char} {kept : List (List Char)}
    (h : HasLines everyComment body kept) (hl : l ∈ kept) :
    ∃ line ∈ Text.lines body, l = cleanLine everyComment line := by
  obtain ⟨above, below, hcleaned⟩ := h.cleaned
  have hmem : l ∈ (Text.lines body).map (cleanLine everyComment) := by
    rw [← forall₂_cleans_iff.mp hcleaned]
    exact List.mem_append_right _ (List.mem_append_left _ hl)
  obtain ⟨line, hline, rfl⟩ := List.mem_map.mp hmem
  exact ⟨line, hline, rfl⟩

theorem newline_not_mem_of_hasLines {body : List Char} {kept : List (List Char)}
    (h : HasLines everyComment body kept) : ∀ l ∈ kept, '\n' ∉ l := by
  intro l hl hnewline
  obtain ⟨line, hline, rfl⟩ := exists_of_mem_hasLines h hl
  exact Text.newline_not_mem_lines hline (mem_of_mem_cleanLine hnewline)

theorem isTrim_of_hasLines {body : List Char} {kept : List (List Char)}
    (h : HasLines everyComment body kept) : ∀ l ∈ kept, Text.IsTrim l := by
  intro l hl
  obtain ⟨line, -, rfl⟩ := exists_of_mem_hasLines h hl
  exact Text.isTrim_trim _

/-- A line has a margin where every comment is documentation, and otherwise exactly if stars or
    slashes come first in it behind its spaces. The text of a comment is made of the lines that the
    rule gives, and of no others: each line of the body without its longest margin and without white
    space at its ends, the empty ones dropped in front and behind and kept in between. So no line of
    the text has white space at an end, the first and the last are not empty, and there is no text
    exactly if every line is cleaned to nothing. -/
theorem normalize_linewise (everyComment : Bool) (body : List Char) :
    (∀ line, (∃ margin rest, line = margin ++ rest ∧ IsMargin everyComment margin) ↔
      everyComment ∨ isDecorated line) ∧
      (∃! kept, HasLines everyComment body kept) ∧
      ∀ kept, HasLines everyComment body kept →
        normalize everyComment body = Text.unlines kept ∧
        (∀ l ∈ Text.lines (normalize everyComment body), Text.IsTrim l) ∧
        (normalize everyComment body ≠ [] →
          Text.lines (normalize everyComment body) = kept ∧
          kept.head? ≠ some [] ∧ kept.getLast? ≠ some []) ∧
        (normalize everyComment body = [] ↔
          ∀ line ∈ Text.lines body, Cleans everyComment line []) := by
  refine ⟨fun line => ⟨?_, fun h => ?_⟩, ⟨_, hasLines_iff.mpr rfl, fun _ => hasLines_iff.mp⟩, ?_⟩
  · rintro ⟨margin, rest, rfl, hmargin⟩
    cases everyComment with
    | false => exact .inr (isDecorated_of_isMargin hmargin rest)
    | true => exact .inl rfl
  · obtain ⟨margin, heq, hmargin⟩ := exists_isMargin h
    exact ⟨margin, _, heq, hmargin⟩
  · intro kept h
    have htext : normalize everyComment body = Text.unlines kept := by
      rw [normalize_eq_unlines, hasLines_iff.mp h]
    have hnil := Text.unlines_eq_nil_iff h.first
    have hlines : kept ≠ [] → Text.lines (normalize everyComment body) = kept := by
      intro hne
      rw [htext, Text.lines_unlines hne (newline_not_mem_of_hasLines h)]
    refine ⟨htext, ?_, ?_, ?_⟩
    · cases hkept : kept with
      | nil =>
        rw [htext, hkept]
        exact List.forall_mem_singleton.mpr ⟨rfl, rfl⟩
      | cons l ls =>
        rw [hlines (hkept ▸ List.cons_ne_nil l ls)]
        exact isTrim_of_hasLines h
    · intro hne
      exact ⟨hlines (mt hnil.mpr (htext ▸ hne)), h.first, h.last⟩
    · rw [htext, hnil, hasLines_iff.mp h, Text.trimLines_eq_nil_iff, List.forall_mem_map]
      exact forall₂_congr fun line _ => (cleans_iff.trans eq_comm).symm

/-- Stars and slashes go with the spaces around them; a tab in front of them keeps them. -/
theorem normalize_linewise_behind_tab :
    HasLines false " */ a\n*\n\t* b \n ".toList ["a".toList, [], "* b".toList] ∧
      normalize false " */ a\n*\n\t* b \n ".toList = "a\n\n* b".toList := by
  have hlines : HasLines false " */ a\n*\n\t* b \n ".toList ["a".toList, [], "* b".toList] :=
    hasLines_iff.mpr (by decide +kernel)
  obtain ⟨-, -, hkept⟩ := normalize_linewise false " */ a\n*\n\t* b \n ".toList
  exact ⟨hlines, (hkept _ hlines).1.trans (by decide +kernel)⟩

end Doc

end SchemaLex
