-- SUMMARY: A caret passes gaps, lexemes and literal bodies as its reader does.
import SchemaLex.Proofs.Caret.Comments
import SchemaLex.Proofs.Layout
import SchemaLex.Proofs.Literal.Closing

/-!
# Gaps, Lexemes and Literals under a Caret

One item of a gap is passed at a time, with the items that a line comment takes in. As each brings
the caret nearer to the end of the text, the whole gap is passed, to the place that the reader has
behind it. The documentation found on the way ends above the greatest line, so there is a line below
each comment: `gap?_caret`.
-/

namespace SchemaLex

namespace Lexeme

/-- A quote is a lexeme, and no other lexeme starts with one. -/
theorem quote?_first (c : Char) (cs : List Char) : (first c cs).quote? = Quote.ofChar? c := by
  unfold first
  split
  · next hq => exact hq.symm
  · next hq => split <;> exact hq.symm

/-- A slash and a delimiter stand alone. -/
theorem chars_first_of_alone {c : Char} (h : c = '/' ∨ isDelimiter c) (cs : List Char) :
    (first c cs).chars = [c] := by
  unfold first
  split
  · next q hq => exact congrArg (fun d => [d]) (Quote.ofChar?_eq_some_iff.mp hq).symm
  · rw [if_pos (by simpa using h)]
    rfl

end Lexeme

namespace Caret

/-- The closing quote is found at the size of the body. -/
theorem closingOffset?_eq (q : Quote) (cs : List Char) :
    closingOffset? q false cs = (Literal.split? q cs).map fun found => Text.byteSize found.1 := by
  induction cs using Literal.split?.induct q with
  | case1 => rfl
  | case2 c cs ih =>
    rw [closingOffset?, if_pos rfl, closingOffset?, ih, Literal.split?]
    cases Literal.split? q cs <;> simp
  | case3 cs hne =>
    rw [closingOffset?, if_neg q.char_ne_backslash, if_pos rfl, Literal.split?, if_pos rfl]
    · rfl
    · exact hne
  | case4 c cs hne hq ih =>
    rw [closingOffset?, Literal.split?, if_neg hq, if_neg hq]
    · by_cases hc : c = '\\'
      · -- the text ends behind this backslash, else it would protect a character
        cases cs with
        | nil => simp [hc, closingOffset?, Literal.split?]
        | cons d ds => exact absurd rfl (hne d ds hc)
      · rw [if_neg hc, ih]
        cases Literal.split? q cs <;> simp
    · exact hne

end Caret

namespace Reader

variable {r : Reader} {t : Trivia} {ts : List Trivia} {body rest : List Char}
  {everyComment : Bool} {q : Quote}

/-! ## Items -/

/-- A run takes as many lines as it has comments. -/
theorem line_foldl_pass_run (h : r.ahead = ts.flatMap Trivia.chars ++ rest)
    (hgap : Trivia.IsGap ts rest) :
    ((Trivia.run ts).1.foldl pass r).line
      = r.line + (Trivia.lineBodies (Trivia.run ts).1).length := by
  induction ts generalizing r with
  | nil => rfl
  | cons t ts ih =>
    rw [List.flatMap_cons, List.append_assoc] at h
    have hlater := ih (ahead_pass_of_eq_append h) hgap.2
    cases t with
    | blank c =>
      by_cases hnil : (Trivia.run (.blank c :: ts)).1 = []
      · rw [hnil]
        rfl
      · obtain ⟨hc, -, hrun⟩ := Trivia.run_blank_of_ne_nil hnil
        have hline : (r.pass (.blank c)).line = r.line :=
          line_foldl_pass_indent (List.forall_mem_singleton.mpr hc) h
        rw [hrun, List.foldl_cons, hlater, hline]
        rfl
    | line body ended =>
      have hline := line_pass_line hgap.1.newline_not_mem h
      simp only [Trivia.run, List.foldl_cons, Trivia.lineBodies, List.length_cons, hlater, hline]
      omega
    | block body => rfl

theorem line_foldl_pass_absorbed (h : r.ahead = ts.flatMap Trivia.chars ++ rest)
    (hgap : Trivia.IsGap ts rest) (above : Reader) :
    ((Doc.absorbed above ts).1.foldl pass r).line
      = r.line + (Trivia.lineBodies (Doc.absorbed above ts).1).length := by
  unfold Doc.absorbed
  split
  · exact line_foldl_pass_run h hgap
  · rfl

theorem item?_caret_of_blank {c : Char} (hw : r.Within Caret.maxLine) (h : r.ahead = c :: rest)
    (hc : Text.isBlank c) :
    r.caret.item? everyComment = some (.passed none, (r.pass (.blank c)).caret) := by
  have hne : r.caret.atEnd = false := by simp [h]
  have hblank : Text.isBlank r.caret.current := by rwa [current_caret, h]
  have hpass : r.pass (.blank c) = r.advance 1 := rfl
  simp [Caret.item?, hne, hblank, moveBy?_caret hw, hpass]

theorem item?_caret_of_line (everyComment : Bool) (h : r.ahead = '/' :: '/' :: rest) :
    r.caret.item? everyComment =
      (r.caret.lineComment? everyComment).map fun (doc, next) => (.passed doc, next) := by
  have hne : r.caret.atEnd = false := by simp [h]
  have hblank : Text.isBlank r.caret.current = false := by
    rw [current_caret, h]
    rfl
  have hmark : r.caret.atLineMark := by simp [atLineMark_caret, h]
  simp [Caret.item?, hne, hblank, hmark]

theorem item?_caret_of_block (everyComment : Bool) (h : r.ahead = '/' :: '*' :: rest) :
    r.caret.item? everyComment = r.caret.blockComment? everyComment := by
  have hne : r.caret.atEnd = false := by simp [h]
  have hblank : Text.isBlank r.caret.current = false := by
    rw [current_caret, h]
    rfl
  have hline : r.caret.atLineMark = false := by simp [atLineMark_caret, h]
  have hmark : r.caret.atOpeningMark := by simp [atOpeningMark_caret, h]
  simp [Caret.item?, hne, hblank, hline, hmark]

/-- Where a gap ends there is nothing to pass. -/
theorem item?_caret_of_end (hend : Trivia.read? r.ahead = none)
    (hopen : ¬ Trivia.OpensBlock r.ahead) :
    r.caret.item? everyComment = some (.nothing, r.caret) := by
  rcases Trivia.read?_eq_none_iff.mp hend with hnil | ⟨body, hbody, -⟩ | ⟨c, cs, hcons, hc, hslash⟩
  · simp [Caret.item?, hnil]
  · exact absurd (hbody ▸ ⟨body, rfl⟩) hopen
  · have hne : r.caret.atEnd = false := by simp [hcons]
    have hblank : Text.isBlank r.caret.current = false := by rwa [current_caret, hcons]
    have hline : r.caret.atLineMark = false := by
      rw [atLineMark_caret, hcons]
      refine decide_eq_false ?_
      rintro ⟨tail, htail⟩
      obtain ⟨rfl, rfl⟩ := List.cons.inj htail
      exact (hslash rfl).1 rfl
    have hmark : r.caret.atOpeningMark = false := by
      rw [atOpeningMark_caret]
      exact decide_eq_false hopen
    simp [Caret.item?, hne, hblank, hline, hmark]

/-- The line behind an item is not the greatest, unless the text ends the item's line. -/
theorem Within.line_pass_lt {n : Nat} (h : r.Within n) (hahead : r.ahead = t.chars ++ rest)
    (himplied : t.impliedLineEnds = 0) : (r.pass t).line < n := by
  have hlt := h.lt (by simp [hahead, t.chars_ne_nil])
  rw [hahead, List.count_append] at hlt
  rw [line_pass hahead, himplied]
  omega

theorem Within.line_lt_of_ofMarked? {n : Nat} {d : Doc} (h : r.Within n)
    (hahead : r.ahead = t.chars ++ rest) (hd : Doc.ofMarked? r t = some d) : d.line < n := by
  have hlt := h.lt (by simp [hahead, t.chars_ne_nil])
  unfold Doc.ofMarked? at hd
  split at hd
  · obtain rfl := Option.some.inj hd
    exact Nat.lt_of_le_of_lt (Nat.le_add_right _ _) hlt
  · obtain rfl := Option.some.inj hd
    exact h.line_pass_lt hahead rfl
  · cases hd

/-- The first item of a gap is passed with those that it takes in. The documentation that they are
    ends above the greatest line. -/
theorem exists_item?_caret (everyComment : Bool) (hw : r.Within Caret.maxLine)
    (h : r.ahead = (t :: ts).flatMap Trivia.chars ++ rest) (hgap : Trivia.IsGap (t :: ts) rest)
    (hend : Trivia.read? rest = none) :
    ∃ (doc : Option Doc) (taken us : List Trivia), taken ++ us = ts ∧
      r.caret.item? everyComment = some (.passed doc, (taken.foldl pass (r.pass t)).caret) ∧
      Doc.captured everyComment r (t :: ts) =
        doc.toList ++ Doc.captured everyComment (taken.foldl pass (r.pass t)) us ∧
      ∀ d ∈ doc, d.line < Caret.maxLine := by
  rw [List.flatMap_cons, List.append_assoc] at h
  obtain ⟨hfits, hbelow⟩ := hgap
  have hmarked : ∀ d ∈ Doc.ofMarked? r t, d.line < Caret.maxLine :=
    fun d hd => hw.line_lt_of_ofMarked? h hd
  cases t with
  | blank c =>
    refine ⟨none, [], ts, rfl, item?_caret_of_blank hw h hfits, ?_, by simp⟩
    cases everyComment with
    | true => simp [Doc.captured, Doc.every]
    | false => rfl
  | line body ended =>
    have hitem := item?_caret_of_line everyComment h
    cases everyComment with
    | true =>
      rw [lineComment?_caret_every hw h ⟨hfits, hbelow⟩ hend] at hitem
      refine ⟨_, _, _, Doc.absorbed_append r ts, hitem, by simp [Doc.captured, Doc.every], ?_⟩
      -- each comment that was taken in ends its line, the last at most the one above the greatest
      have hnext := ahead_pass_of_eq_append h
      have hsplit := Doc.absorbed_append r ts
      have hlines := line_foldl_pass_absorbed hnext hbelow r
      rw [line_pass_line hfits.newline_not_mem h] at hlines
      rw [← hsplit, List.flatMap_append, List.append_assoc] at hnext
      rw [← hsplit] at hbelow
      have hlast := ((hw.pass h hfits).foldl_pass hnext hbelow.of_append_left).line_le
      rintro d ⟨⟩
      change r.line + _ < _
      omega
    | false =>
      rw [lineComment?_caret_marked hw h hfits] at hitem
      exact ⟨_, [], ts, rfl, hitem, rfl, hmarked⟩
  | block body =>
    have hitem := item?_caret_of_block everyComment h
    rw [blockComment?_caret hw h hfits] at hitem
    refine ⟨_, [], ts, rfl, hitem, ?_, ?_⟩
    · cases everyComment with
      | true => simp [Doc.captured, Doc.every]
      | false => rfl
    · cases everyComment with
      | true =>
        rintro d ⟨⟩
        exact hw.line_pass_lt h rfl
      | false => exact hmarked

/-! ## Gaps -/

/-- The items of a gap are passed one by one. -/
theorem gap?_caret (hw : r.Within Caret.maxLine) (h : r.ahead = ts.flatMap Trivia.chars ++ rest)
    (hgap : Trivia.IsGap ts rest) (hend : Trivia.read? rest = none) :
    (∀ d ∈ Doc.captured everyComment r ts, d.line < Caret.maxLine) ∧
      r.caret.gap? everyComment = ((ts.foldl pass r).caret.gap? everyComment).map
        fun later => (Doc.captured everyComment r ts ++ later.1, later.2) := by
  induction hlength : ts.length using Nat.strong_induction_on generalizing ts r with
  | _ n ih =>
  cases ts with
  | nil => simp
  | cons t ts =>
    obtain ⟨doc, taken, us, rfl, hitem, hdocs, hlines⟩ :=
      exists_item?_caret everyComment hw h hgap hend
    rw [List.flatMap_cons, List.append_assoc] at h
    have hnext := ahead_pass_of_eq_append h
    rw [List.flatMap_append, List.append_assoc] at hnext
    have hbehind := ahead_foldl_pass taken (r.pass t) _ hnext
    have hcrossed : r.ahead = (t.chars ++ taken.flatMap Trivia.chars)
        ++ (taken.foldl pass (r.pass t)).ahead := by
      rw [hbehind, h, List.flatMap_append, List.append_assoc, List.append_assoc]
    have hless := left_lt_of_crossed (by simp [t.chars_ne_nil]) hcrossed
    have hshorter : us.length < n := by
      rw [← hlength, List.length_cons, List.length_append]
      omega
    obtain ⟨hlater, hrest⟩ := ih us.length hshorter
      ((hw.pass h hgap.1).foldl_pass hnext hgap.2.of_append_left) hbehind hgap.2.of_append rfl
    rw [hdocs]
    refine ⟨?_, ?_⟩
    · intro d hd
      rcases List.mem_append.mp hd with hhere | hd
      · exact hlines d (Option.mem_toList.mp hhere)
      · exact hlater d hd
    · rw [Caret.gap?, hitem]
      simp only [hless, ↓reduceIte]
      rw [hrest, Option.map_map, List.foldl_cons, List.foldl_append]
      simp [Function.comp_def]

theorem gap?_caret_of_end (hend : Trivia.read? r.ahead = none)
    (hopen : ¬ Trivia.OpensBlock r.ahead) :
    r.caret.gap? everyComment = some ([], false, r.caret) := by
  rw [Caret.gap?, item?_caret_of_end hend hopen]

theorem gap?_caret_of_open (hw : r.Within Caret.maxLine) (h : r.ahead = '/' :: '*' :: body)
    (hbody : Trivia.NoClosingMark body) :
    r.caret.gap? everyComment = some ([], true, (r.advance r.ahead.length).caret) := by
  rw [Caret.gap?, item?_caret_of_block everyComment h, blockComment?_caret_of_open hw h hbody]

/-! ## Lexemes -/

theorem atWordEnd_caret (r : Reader) :
    r.caret.atWordEnd = r.ahead.head?.all Lexeme.isDelimiter := by
  rw [Caret.atWordEnd, atEnd_caret, current_caret]
  cases r.ahead <;> rfl

theorem lexeme?_caret {c : Char} {cs : List Char} (hw : r.Within Caret.maxLine)
    (h : r.ahead = c :: cs) :
    r.caret.lexeme? =
      some ((Lexeme.first c cs).chars, (r.advance (Lexeme.first c cs).chars.length).caret) := by
  have hcurrent : r.caret.current = c := by
    rw [current_caret, h]
    rfl
  by_cases hword : c ≠ '/' ∧ Lexeme.isDelimiter c = false
  · obtain ⟨hslash, hplain⟩ := hword
    have hsplit : (r.advance 1).ahead = cs.takeWhile (fun d => !Lexeme.isDelimiter d)
        ++ cs.dropWhile fun d => !Lexeme.isDelimiter d := by
      simp [h]
    have hinside : ∀ d ∈ cs.takeWhile (fun d => !Lexeme.isDelimiter d),
        Lexeme.isDelimiter d = false :=
      fun d hd => by simpa using List.all_eq_true.mp List.all_takeWhile d hd
    have hpass := passUntil?_caret_of_char atWordEnd_caret (hw.advance 1) hsplit hinside
      (Text.head?_dropWhile_not_all Lexeme.isDelimiter cs)
    have htake : (cs.take (cs.takeWhile fun d => !Lexeme.isDelimiter d).length)
        = cs.takeWhile fun d => !Lexeme.isDelimiter d :=
      List.prefix_iff_eq_take.mp (List.takeWhile_prefix _) |>.symm
    rw [advance_advance, Nat.add_comm] at hpass
    rw [Lexeme.first_word hslash hplain]
    simp [Caret.lexeme?, moveBy?_caret hw, hcurrent, hslash, hplain, hpass, since?_caret, h,
      Lexeme.chars, htake]
  · have halone : c = '/' ∨ Lexeme.isDelimiter c := by
      by_cases hslash : c = '/'
      · exact .inl hslash
      · exact .inr (by simpa [hslash] using hword)
    have hstay : (c != '/' && !Lexeme.isDelimiter c) = false := by
      rcases halone with rfl | hc
      · rfl
      · simp [hc]
    rw [Lexeme.chars_first_of_alone halone]
    simp [Caret.lexeme?, moveBy?_caret hw, hcurrent, hstay, since?_caret, h]

/-! ## Literals -/

theorem body?_caret_of_none (countLines : Bool) (h : Literal.split? q r.ahead = none) :
    r.caret.body? q countLines = some (none, r.caret) := by
  simp [Caret.body?, Caret.closingOffset?_eq, h]

theorem body?_caret_of_some (hw : r.Within Caret.maxLine) (countLines : Bool)
    (h : Literal.split? q r.ahead = some (body, rest)) :
    r.caret.body? q countLines =
      some (some body, (if countLines then r.advance (body.length + 1)
        else r.leap (body.length + 1)).caret) := by
  have hahead := Literal.eq_of_split? h
  have hcut : Text.splitAt? r.ahead (Text.byteSize body) = some (body, q.char :: rest) := by
    rw [hahead, Text.splitAt?_append]
  have hquote : q.char.utf8Size = 1 := by cases q <;> rfl
  have hwidth : Text.byteSize body + 1 = Text.byteSize (r.ahead.take (body.length + 1)) := by
    simp [hahead, List.take_append, List.take_of_length_le, hquote]
  have hmove := moveBytes?_caret hw (body.length + 1)
  have hleap := leapBytes?_caret (body.length + 1) r
  rw [← hwidth] at hmove hleap
  cases countLines <;> simp [Caret.body?, Caret.closingOffset?_eq, h, hcut, hmove, hleap]

end Reader

end SchemaLex
