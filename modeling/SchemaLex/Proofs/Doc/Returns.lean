-- SUMMARY: Carriage returns at the ends of lines leave the documentation of a gap as it is.
import SchemaLex.Proofs.Doc.Marked
import SchemaLex.Proofs.Doc.Run
import SchemaLex.Proofs.Doc.Text
import SchemaLex.Proofs.Trivia.Returns

/-!
# Documentation behind Carriage Returns

A carriage return at the end of a line is white space in the margin of the line, so cleaning drops
it: `normalize_withReturns`. It is no indentation, but in front of a newline it never stands between
indentation and a line comment, so runs of line comments stay whole: `captured_withReturns`.
-/

namespace SchemaLex

namespace Text

theorem trimStart_append_blank {c : Char} (hc : isBlank c) (l : List Char) :
    trimStart (l ++ [c]) = if trimStart l = [] then [] else trimStart l ++ [c] := by
  rw [trimStart, List.dropWhile_append, List.dropWhile_cons_of_pos hc, List.dropWhile_nil]
  simp only [List.isEmpty_iff]
  rfl

theorem trim_append_blank {c : Char} (hc : isBlank c) (l : List Char) :
    trim (l ++ [c]) = trim l := by
  rw [trim, trimStart_append_blank hc]
  split
  · next h => rw [trim, h]
  · rw [trimEnd, List.reverse_append, List.reverse_singleton, List.singleton_append,
      List.dropWhile_cons_of_pos hc]
    rfl

theorem Returned.trim_eq {l l' : List Char} (h : Returned l l') : trim l' = trim l := by
  rcases h with rfl | rfl
  · rfl
  · exact trim_append_blank (by decide) l

/-- The lines of the text with returns are its lines, each with or without a return. -/
theorem lines_withReturns (cs : List Char) :
    List.Forall₂ Returned (lines cs) (lines (withReturns cs)) := by
  induction cs with
  | nil => exact .cons (.inl rfl) .nil
  | cons c cs ih =>
    by_cases hc : c = '\n'
    · subst hc
      have hlines : lines ('\n' :: cs) = [] :: lines cs := List.splitOn_cons_eq_if_modifyHead _ _
      have hreturns : lines (withReturns ('\n' :: cs)) = ['\r'] :: lines (withReturns cs) := by
        rw [withReturns_newline, lines, List.splitOn_cons_eq_if_modifyHead,
          List.splitOn_cons_eq_if_modifyHead]
        rfl
      rw [hlines, hreturns]
      exact .cons (.inr rfl) ih
    · have hline (ds : List Char) : lines (c :: ds) = (lines ds).modifyHead (c :: ·) :=
        (List.splitOn_cons_eq_if_modifyHead _ _).trans (if_neg (by simpa using hc))
      rw [withReturns_cons hc, hline, hline]
      generalize lines cs = ls, lines (withReturns cs) = ls' at ih
      cases ih with
      | nil => exact .nil
      | cons hhead htail => exact .cons (hhead.imp (congrArg _) (congrArg _)) htail

end Text

namespace Doc

open Text (Returned withReturns)

variable {everyComment : Bool}

/-! ## Lines -/

theorem dropWhile_append_return {p : Char → Bool} (hreturn : p '\r' = false) (l : List Char) :
    (l ++ ['\r']).dropWhile p = l.dropWhile p ++ ['\r'] := by
  rw [List.dropWhile_append]
  split
  · next h => simp [List.isEmpty_iff.mp h, hreturn]
  · rfl

theorem undecorate_append_return (l : List Char) :
    undecorate (l ++ ['\r']) = undecorate l ++ ['\r'] := by
  have hhead (cs : List Char) :
      (cs ++ ['\r']).head?.any isDecoration = cs.head?.any isDecoration := by
    cases cs <;> rfl
  unfold undecorate
  dsimp only
  rw [dropWhile_append_return (by decide), hhead]
  split
  · rw [dropWhile_append_return (by decide), dropWhile_append_return (by decide)]
  · rfl

theorem returned_undecorateAny (l : List Char) :
    Returned (undecorateAny l) (undecorateAny (l ++ ['\r'])) := by
  unfold undecorateAny
  dsimp only
  rw [Text.trimStart_append_blank (by decide)]
  cases Text.trimStart l with
  | nil => exact .inl rfl
  | cons c cs =>
    refine .inr ?_
    rw [← dropWhile_append_return (by decide), if_neg (List.cons_ne_nil c cs)]
    by_cases hc : c = '*'
    · simp [hc]
    · simp [hc]

theorem cleanLine_of_returned {l l' : List Char} (h : Returned l l') :
    cleanLine everyComment l' = cleanLine everyComment l := by
  rcases h with rfl | rfl
  · rfl
  · cases everyComment with
    | true => exact (returned_undecorateAny l).trim_eq
    | false =>
      have hreturned : Returned (undecorate l) (undecorate (l ++ ['\r'])) :=
        .inr (undecorate_append_return l)
      exact hreturned.trim_eq

theorem map_cleanLine_of_returned {ls ls' : List (List Char)} (h : List.Forall₂ Returned ls ls') :
    ls'.map (cleanLine everyComment) = ls.map (cleanLine everyComment) := by
  induction h with
  | nil => rfl
  | cons hline hlines ih => rw [List.map_cons, cleanLine_of_returned hline, ih, List.map_cons]

/-- The text of a comment does not depend on how its lines end. -/
theorem normalize_withReturns (body : List Char) :
    normalize everyComment (withReturns body) = normalize everyComment body := by
  rw [normalize, map_cleanLine_of_returned (Text.lines_withReturns body)]
  rfl

theorem normalize_unlines_of_returned (everyComment : Bool) {ls ls' : List (List Char)}
    (hne : ls ≠ []) (h : ∀ l ∈ ls, '\n' ∉ l) (hreturned : List.Forall₂ Returned ls ls') :
    normalize everyComment (Text.unlines ls') = normalize everyComment (Text.unlines ls) := by
  have hne' : ls' ≠ [] := by
    rintro rfl
    exact hne (List.forall₂_nil_right_iff.mp hreturned)
  have h' : ∀ l ∈ ls', '\n' ∉ l := by
    clear hne hne'
    induction hreturned with
    | nil => simp
    | cons hline hlines ih =>
      obtain ⟨hhere, hlater⟩ := List.forall_mem_cons.mp h
      refine List.forall_mem_cons.mpr ⟨?_, ih hlater⟩
      rcases hline with rfl | rfl
      · exact hhere
      · simp [hhere]
  rw [normalize_unlines hne' h', normalize_unlines hne h, map_cleanLine_of_returned hreturned]

end Doc

/-! ## Readers -/

theorem Trivia.exists_withReturns_line (body : List Char) (ended : Bool) :
    ∃ body', Text.Returned body body' ∧ (line body ended).withReturns = [line body' ended] := by
  cases ended with
  | true => exact ⟨_, .inr rfl, rfl⟩
  | false => exact ⟨_, .inl rfl, rfl⟩

theorem Trivia.sum_impliedLineEnds_withReturns (ts : List Trivia) :
    ((ts.flatMap withReturns).map impliedLineEnds).sum = (ts.map impliedLineEnds).sum := by
  induction ts with
  | nil => rfl
  | cons t ts ih =>
    have hitem : (t.withReturns.map impliedLineEnds).sum = t.impliedLineEnds := by
      cases t with
      | blank c =>
        rw [withReturns, Text.withReturn]
        split <;> rfl
      | line body ended => cases ended <;> rfl
      | block body => rfl
    rw [List.flatMap_cons, List.map_append, List.sum_append, hitem, ih, List.map_cons,
      List.sum_cons]

namespace Reader

/-- The same place in the text with returns. -/
def withReturns (r : Reader) : Reader :=
  { r with
    behind := (Text.withReturns r.behind.reverse).reverse, ahead := Text.withReturns r.ahead }

variable {r : Reader} {t : Trivia} {ts : List Trivia} {rest : List Char}

@[simp] theorem ahead_withReturns (r : Reader) :
    r.withReturns.ahead = Text.withReturns r.ahead := rfl

@[simp] theorem line_withReturns (r : Reader) : r.withReturns.line = r.line := rfl

theorem leap_withReturns {xs : List Char} (h : r.ahead = xs ++ rest) :
    r.withReturns.leap (Text.withReturns xs).length = (r.leap xs.length).withReturns := by
  simp [withReturns, leap, h]

theorem advance_withReturns {xs : List Char} (h : r.ahead = xs ++ rest) :
    r.withReturns.advance (Text.withReturns xs).length = (r.advance xs.length).withReturns := by
  simp [withReturns, advance, leap, h, Text.count_newline_withReturns]

theorem toEnd_withReturns (r : Reader) : r.withReturns.toEnd = r.toEnd.withReturns :=
  leap_withReturns (List.append_nil r.ahead).symm

theorem skipMark_withReturns (r : Reader) : r.withReturns.skipMark = r.skipMark.withReturns := by
  have hbehind : r.withReturns.behind.isEmpty = r.behind.isEmpty := by
    rw [Bool.eq_iff_iff, List.isEmpty_iff, List.isEmpty_iff]
    simp [withReturns, Text.withReturns_eq_nil_iff]
  have hahead : r.withReturns.ahead.head? = some '\uFEFF' ↔ r.ahead.head? = some '\uFEFF' :=
    Text.head?_withReturns (by decide) (by decide)
  unfold skipMark
  rw [hbehind]
  by_cases hmark : r.ahead.head? = some '\uFEFF'
  · obtain ⟨rest, hrest⟩ := List.head?_eq_some_iff.mp hmark
    rw [hmark, hahead.mpr hmark]
    split
    · have hsplit : r.ahead = ['\uFEFF'] ++ rest := hrest
      exact leap_withReturns hsplit
    · rfl
  · have hmark' := mt hahead.mp hmark
    simp [hmark, hmark', -ahead_withReturns]

theorem atIndent_withReturns (r : Reader) : r.withReturns.atIndent = r.atIndent := by
  have hline : ∀ cs : List Char,
      (Text.withReturns cs.reverse).reverse.takeWhile (· != '\n') = cs.takeWhile (· != '\n') := by
    intro cs
    induction cs with
    | nil => rfl
    | cons c cs ih =>
      rw [List.reverse_cons, Text.withReturns_append, List.reverse_append]
      by_cases hc : c = '\n'
      · subst hc
        rfl
      · have hkeep : (c != '\n') = true := by simpa using hc
        rw [Text.withReturns_cons hc]
        simpa [hkeep] using ih
  rw [atIndent, atIndent, ← hline r.behind]
  rfl

theorem foldl_pass_withReturns (h : r.ahead = ts.flatMap Trivia.chars ++ rest)
    (hgap : Trivia.IsGap ts rest) :
    (ts.flatMap Trivia.withReturns).foldl pass r.withReturns =
      (ts.foldl pass r).withReturns := by
  have hchars := hgap.flatMap_chars_withReturns
  have hahead : r.withReturns.ahead =
      (ts.flatMap Trivia.withReturns).flatMap Trivia.chars ++ Text.withReturns rest := by
    rw [hchars, ← Text.withReturns_append, ← h]
    rfl
  rw [foldl_pass_eq hahead, foldl_pass_eq h, hchars, Text.count_newline_withReturns,
    Trivia.sum_impliedLineEnds_withReturns]
  simp [withReturns]

theorem pass_withReturns (h : r.ahead = t.chars ++ rest) (hfits : t.Fits rest) :
    t.withReturns.foldl pass r.withReturns = (r.pass t).withReturns := by
  have hgap : Trivia.IsGap [t] rest := ⟨by simpa using hfits, trivial⟩
  simpa using foldl_pass_withReturns (by simpa using h) hgap

end Reader

/-! ## Captured Comments -/

namespace Doc

variable {r : Reader} {t : Trivia} {ts : List Trivia} {rest : List Char}

theorem marked_withReturns_item (h : r.ahead = t.chars ++ rest) (hfits : t.Fits rest) :
    marked r.withReturns t.withReturns = (ofMarked? r t).toList := by
  have hpass := Reader.pass_withReturns h hfits
  cases t with
  | blank c => exact marked_blanks _ _
  | line body ended =>
    obtain ⟨body', hbody, hitem⟩ := Trivia.exists_withReturns_line body ended
    rw [hitem]
    cases body with
    | nil => rcases hbody with rfl | rfl <;> rfl
    | cons c cs =>
      obtain ⟨cs', rfl, hcs⟩ : ∃ cs', body' = c :: cs' ∧ Text.Returned cs cs' := by
        rcases hbody with rfl | rfl
        · exact ⟨cs, rfl, .inl rfl⟩
        · exact ⟨cs ++ ['\r'], rfl, .inr rfl⟩
      by_cases hc : c = '/'
      · subst hc
        have hnewline : '\n' ∉ cs := mt (List.mem_cons_of_mem _) hfits.newline_not_mem
        have htext := normalize_unlines_of_returned false (List.cons_ne_nil cs [])
          (by simpa using hnewline) (.cons hcs .nil)
        rw [Text.unlines_singleton, Text.unlines_singleton] at htext
        simp [marked, ofMarked?, htext]
      · simp [marked, ofMarked?, hc]
  | block body =>
    by_cases hmark : body.head? = some '*'
    · obtain ⟨cs, rfl⟩ := List.head?_eq_some_iff.mp hmark
      have hmarked : Text.withReturns ('*' :: cs) = '*' :: Text.withReturns cs := rfl
      rw [Trivia.withReturns, hmarked] at hpass ⊢
      have hline : (r.withReturns.pass (.block ('*' :: Text.withReturns cs))).line =
          (r.pass (.block ('*' :: cs))).withReturns.line := congrArg Reader.line hpass
      simp [marked, ofMarked?, normalize_withReturns, hline]
    · have hplain : ¬ (Trivia.block (Text.withReturns body)).IsMarked :=
        mt (Text.head?_withReturns (by decide) (by decide)).mp hmark
      have hnone : ofMarked? r (.block body) = none :=
        Option.not_isSome_iff_eq_none.mp (mt isSome_ofMarked?_iff.mp hmark)
      rw [hnone]
      exact marked_eq_nil_iff.mpr (by simpa [Trivia.withReturns] using hplain)

theorem marked_withReturns (h : r.ahead = ts.flatMap Trivia.chars ++ rest)
    (hgap : Trivia.IsGap ts rest) :
    marked r.withReturns (ts.flatMap Trivia.withReturns) = marked r ts := by
  induction ts generalizing r with
  | nil => rfl
  | cons t ts ih =>
    rw [List.flatMap_cons, List.append_assoc] at h
    rw [List.flatMap_cons, marked_append, marked_withReturns_item h hgap.1,
      Reader.pass_withReturns h hgap.1, ih (Reader.ahead_pass_of_eq_append h) hgap.2, marked]

theorem every_blanks_append (r : Reader) (cs : List Char) (ts : List Trivia) :
    every r (cs.map .blank ++ ts) = every ((cs.map .blank).foldl Reader.pass r) ts := by
  induction cs generalizing r with
  | nil => rfl
  | cons c cs ih => rw [List.map_cons, List.cons_append, every, ih, List.foldl_cons]

theorem every_withReturns (h : r.ahead = ts.flatMap Trivia.chars ++ rest)
    (hgap : Trivia.IsGap ts rest) :
    every r.withReturns (ts.flatMap Trivia.withReturns) = every r ts := by
  fun_induction every r ts with
  | case1 r => rw [List.flatMap_nil, every]
  | case2 r c ts ih =>
    have hfront : r.ahead = (Trivia.blank c).chars ++ (ts.flatMap Trivia.chars ++ rest) := by
      simpa using h
    have hpass : ((Text.withReturn c).map Trivia.blank).foldl Reader.pass r.withReturns =
        (r.pass (.blank c)).withReturns := Reader.pass_withReturns hfront hgap.1
    rw [List.flatMap_cons, Trivia.withReturns, every_blanks_append, hpass,
      ih (Reader.ahead_pass_of_eq_append hfront) hgap.2]
  | case3 r body ts passed ih =>
    have hfront : r.ahead = (Trivia.block body).chars ++ (ts.flatMap Trivia.chars ++ rest) := by
      simpa using h
    have hpass : r.withReturns.pass (.block (Text.withReturns body)) = passed.withReturns :=
      Reader.pass_withReturns hfront hgap.1
    rw [List.flatMap_cons, Trivia.withReturns, List.singleton_append, every, hpass,
      ih (Reader.ahead_pass_of_eq_append hfront) hgap.2, normalize_withReturns]
    rfl
  | case4 r body ended ts hlength below bodies text ih =>
    have hfront : r.ahead =
        (Trivia.line body ended).chars ++ (ts.flatMap Trivia.chars ++ rest) := by simpa using h
    have hahead := Reader.ahead_pass_of_eq_append hfront
    have hpass := Reader.pass_withReturns hfront hgap.1
    obtain ⟨body', hbody, hitem⟩ := Trivia.exists_withReturns_line body ended
    have hbelow : absorbed r.withReturns (ts.flatMap Trivia.withReturns) =
        (below.1.flatMap Trivia.withReturns, below.2.flatMap Trivia.withReturns) := by
      simp only [below, absorbed, Reader.atIndent_withReturns]
      split
      · exact Trivia.run_withReturns ts
      · rfl
    have hitems : below.1 ++ below.2 = ts := by
      simp only [below, absorbed]
      split
      · exact Trivia.run_append ts
      · rfl
    have hpassed : r.withReturns.pass (.line body' ended) =
        (r.pass (.line body ended)).withReturns := by
      rw [hitem] at hpass
      exact hpass
    rw [← hitems, List.flatMap_append, List.append_assoc] at hahead
    have hgaps : Trivia.IsGap (below.1 ++ below.2) rest := hitems ▸ hgap.2
    have hgap' := hgaps.of_append_left
    have hbodies := Trivia.lineBodies_withReturns below.1
    have htext : normalize true (Text.unlines
        (body' :: Trivia.lineBodies (below.1.flatMap Trivia.withReturns))) = text := by
      refine normalize_unlines_of_returned true (List.cons_ne_nil _ _) ?_ (.cons hbody hbodies)
      exact List.forall_mem_cons.mpr ⟨hgap.1.newline_not_mem, hgap'.newline_not_mem_lineBodies⟩
    rw [List.flatMap_cons, hitem, List.singleton_append, every, hbelow]
    dsimp only
    rw [htext, hbodies.length_eq.symm, hpassed, Reader.foldl_pass_withReturns hahead hgap',
      ih (Reader.ahead_foldl_pass _ _ _ hahead) hgaps.of_append]
    rfl

theorem captured_withReturns (everyComment : Bool)
    (h : r.ahead = ts.flatMap Trivia.chars ++ rest) (hgap : Trivia.IsGap ts rest) :
    captured everyComment r.withReturns (ts.flatMap Trivia.withReturns) =
      captured everyComment r ts := by
  cases everyComment with
  | true => exact every_withReturns h hgap
  | false => exact marked_withReturns h hgap

end Doc

end SchemaLex
