-- SUMMARY: The documentation comment beside a token: found, unless the text below replaces it.
import SchemaLex.Proofs.Doc.Marked
import SchemaLex.Proofs.Session.Scanning
import SchemaLex.Session.Call

/-!
# The Comment beside a Token

Looking for the comment beside a token scans up to the next one, so it also passes the comments on
the lines below. `takeTrailing_docBeside` says what comes of it: the comment beside the token, if
those lines have no documentation of their own and no comment that stays open.
-/

namespace SchemaLex

/-- The text is a documentation comment on one line, behind indentation and in front of `below`. -/
structure DocBeside (cs indent body below : List Char) : Prop where
  eq_append : cs = indent ++ '/' :: '/' :: '/' :: (body ++ below)
  indent : ∀ c ∈ indent, Text.isIndent c
  body : '\n' ∉ body
  below : below = [] ∨ ∃ rest, below = '\n' :: rest

namespace DocBeside

variable {cs indent body below : List Char}

/-- The comment is an item of the gap, and the items behind it are those of the text below, save
    for the newline that ends the comment. -/
theorem exists_gap_eq (h : DocBeside cs indent body below) :
    ∃ ended items,
      Trivia.gap cs =
        (indent.map .blank ++ .line ('/' :: body) ended :: items, (Trivia.gap below).2) ∧
      ((∀ t ∈ items, ¬ t.IsMarked) ↔ ∀ t ∈ (Trivia.gap below).1, ¬ t.IsMarked) := by
  obtain ⟨heq, hindent, hbody, hbelow⟩ := h
  have hblank : ∀ c ∈ indent, Text.isBlank c := fun c hc => Text.isBlank_of_isIndent (hindent c hc)
  have hplain : '\n' ∉ '/' :: body := by simpa using hbody
  rcases hbelow with rfl | ⟨rest, rfl⟩
  · refine ⟨false, [], ?_, by simp [Trivia.gap_nil]⟩
    have hgap : Trivia.IsGap (indent.map .blank ++ [.line ('/' :: body) false]) [] :=
      Trivia.IsGap.blanks_append hblank ⟨⟨hplain, rfl⟩, trivial⟩
    have hall := Trivia.gap_append hgap rfl
    rw [Trivia.gap_nil, ← hall, heq]
    simp [Trivia.flatMap_chars_blanks, Trivia.chars]
  · rw [Trivia.gap_cons_of_isBlank Text.isBlank_newline]
    refine ⟨true, (Trivia.gap rest).1, ?_, by simp [Trivia.IsMarked]⟩
    have hgap : Trivia.IsGap
        (indent.map .blank ++ .line ('/' :: body) true :: (Trivia.gap rest).1)
        (Trivia.gap rest).2 :=
      Trivia.IsGap.blanks_append hblank ⟨hplain, Trivia.isGap_gap rest⟩
    rw [← Trivia.gap_append hgap (Trivia.read?_gap rest), heq]
    simp [Trivia.flatMap_chars_blanks, Trivia.chars, Trivia.flatMap_chars_gap]

/-- No byte order mark stands in front of the comment. -/
theorem head?_ne_mark (h : DocBeside cs indent body below) : cs.head? ≠ some '\uFEFF' := by
  rw [h.eq_append]
  cases indent with
  | nil => simp
  | cons c cs =>
    intro hmark
    obtain rfl := Option.some.inj hmark
    exact absurd (h.indent '\uFEFF' List.mem_cons_self) (by decide)

end DocBeside

namespace Session

variable {s : Session} {indent body below : List Char}

/-- Passing the gap captures the comment beside the token, which stays in the slot unless the text
    below brings another one. That one ends further down. -/
theorem slot_skipGap_of_docBeside (hmode : s.options.everyComment = false)
    (h : DocBeside s.reader.ahead indent body below) :
    ((∀ t ∈ (Trivia.gap below).1, ¬ t.IsMarked) →
      s.skipGap.slot = some ⟨.line, String.ofList (Doc.normalize false body), s.line⟩) ∧
    ((∃ t ∈ (Trivia.gap below).1, t.IsMarked) →
      ∃ doc, s.skipGap.slot = some doc ∧ s.line < doc.line) := by
  obtain ⟨ended, items, hgap, hitems⟩ := h.exists_gap_eq
  have hskip := Reader.skipMark_of_head?_ne h.head?_ne_mark
  let beside := (indent.map Trivia.blank).foldl Reader.pass s.reader
  have hahead : s.reader.ahead = indent ++ ((Trivia.line ('/' :: body) ended).chars ++
      (items.flatMap Trivia.chars ++ (Trivia.gap below).2)) := by
    have hall := Trivia.flatMap_chars_gap s.reader.ahead
    rw [hgap] at hall
    simpa [Trivia.flatMap_chars_blanks] using hall.symm
  have hline : beside.line = s.line := Reader.line_foldl_pass_indent h.indent hahead
  have hbelow : (beside.pass (.line ('/' :: body) ended)).line = s.line + 1 := by
    have hbeside := Reader.ahead_foldl_pass (indent.map .blank) s.reader _
      (by rw [Trivia.flatMap_chars_blanks]; exact hahead)
    rw [← hline]
    exact Reader.line_pass_line (by simpa using h.body) hbeside
  have hdocs : s.gapDocs =
      ⟨.line, String.ofList (Doc.normalize false body), s.line⟩ ::
        Doc.marked (beside.pass (.line ('/' :: body) ended)) items := by
    rw [gapDocs, gapItems, hskip, hgap, Doc.captured, hmode, if_neg Bool.false_ne_true,
      Doc.marked_append, Doc.marked_blanks, List.nil_append, ← hline]
    rfl
  have hslot : s.skipGap.slot = s.gapDocs.getLast?.or s.slot := rfl
  rw [hslot, hdocs]
  constructor
  · intro hplain
    rw [Doc.marked_eq_nil_iff.mpr (hitems.mpr hplain)]
    rfl
  · rintro ⟨t, ht, hmarked⟩
    have hne : Doc.marked (beside.pass (.line ('/' :: body) ended)) items ≠ [] := fun hnil =>
      hitems.mp (Doc.marked_eq_nil_iff.mp hnil) t ht hmarked
    have hmem := List.getLast_mem hne
    refine ⟨_, ?_, Nat.lt_of_succ_le (hbelow ▸ Doc.line_le_of_mem_marked hmem)⟩
    rw [List.getLast?_cons_of_ne_nil hne, List.getLast?_eq_some_getLast hne, Option.some_or]

/-- Without a comment with text in the slot, the lookup looks at the next token, and what it finds
    is what then lies in the slot. -/
theorem takeTrailing_of_idle (hidle : s.Idle) (hslot : ∀ doc ∈ s.slot, doc.hasText = false)
    (line : Nat) :
    (Trivia.OpensBlock s.skipGap.reader.ahead →
      ∃ line', (s.takeTrailing line).1 = .error (.openComment line')) ∧
    (¬ Trivia.OpensBlock s.skipGap.reader.ahead →
      ∃ s' : Session, s'.slot = s.skipGap.slot ∧
        (s.takeTrailing line).1 = .ok (s'.takeDoc (trails line)).1) := by
  have hempty : s.slot.any Doc.hasText = false := by
    cases hs : s.slot with
    | none => rfl
    | some doc => exact hslot doc hs
  obtain ⟨hopen, hplain⟩ := peek_of_idle hidle
  constructor
  · intro hopens
    obtain ⟨line', s', hpeek⟩ := hopen hopens
    exact ⟨line', by simp [takeTrailing, hempty, hpeek]⟩
  · intro hopens
    obtain ⟨token, s', hpeek, hs'⟩ := hplain hopens
    exact ⟨s', hs', by simp [takeTrailing, hempty, hpeek]⟩

/-- The comment beside a token is found exactly if the gap below it brings no other documentation
    and no comment that stays open. Other documentation takes its place, and an open comment ends
    the session. -/
theorem takeTrailing_docBeside (hidle : s.Idle) (hmode : s.options.everyComment = false)
    (hslot : ∀ doc ∈ s.slot, doc.hasText = false)
    (hbeside : DocBeside s.reader.ahead indent body below)
    (htext : Doc.normalize false body ≠ []) :
    ((s.takeTrailing s.line).1 = .ok (some (String.ofList (Doc.normalize false body))) ↔
      ¬ Trivia.OpensBlock (Trivia.gap below).2 ∧ ∀ t ∈ (Trivia.gap below).1, ¬ t.IsMarked) ∧
    ((s.takeTrailing s.line).1 = .ok none ↔
      ¬ Trivia.OpensBlock (Trivia.gap below).2 ∧ ∃ t ∈ (Trivia.gap below).1, t.IsMarked) ∧
    ((∃ line, (s.takeTrailing s.line).1 = .error (.openComment line)) ↔
      Trivia.OpensBlock (Trivia.gap below).2) := by
  have hahead : s.skipGap.reader.ahead = (Trivia.gap below).2 := by
    obtain ⟨ended, items, hgap, -⟩ := hbeside.exists_gap_eq
    rw [ahead_skipGap, Reader.skipMark_of_head?_ne hbeside.head?_ne_mark, hgap]
  obtain ⟨hfound, hreplaced⟩ := slot_skipGap_of_docBeside hmode hbeside
  obtain ⟨hopen, hplain⟩ := takeTrailing_of_idle hidle hslot s.line
  rw [hahead] at hopen hplain
  by_cases hopens : Trivia.OpensBlock (Trivia.gap below).2
  · obtain ⟨line, hfault⟩ := hopen hopens
    refine ⟨iff_of_false ?_ fun h => h.1 hopens, iff_of_false ?_ fun h => h.1 hopens, ?_⟩
    · simp [hfault]
    · simp [hfault]
    · exact iff_of_true ⟨line, hfault⟩ hopens
  · obtain ⟨s', hs', htake⟩ := hplain hopens
    by_cases hmarked : ∃ t ∈ (Trivia.gap below).1, t.IsMarked
    · obtain ⟨doc, hdoc, hline⟩ := hreplaced hmarked
      have hnone : (s'.takeDoc (trails s.line)).1 = none := by
        have hne : ¬ doc.line = s.line := Nat.ne_of_gt hline
        simp [takeDoc_eq, hs', hdoc, trails, hne]
      refine ⟨iff_of_false ?_ ?_, iff_of_true ?_ ⟨hopens, hmarked⟩, iff_of_false ?_ hopens⟩
      · simp [htake, hnone]
      · rintro ⟨-, hall⟩
        obtain ⟨t, ht, htmarked⟩ := hmarked
        exact hall t ht htmarked
      · rw [htake, hnone]
      · simp [htake]
    · have hall : ∀ t ∈ (Trivia.gap below).1, ¬ t.IsMarked := fun t ht htmarked =>
        hmarked ⟨t, ht, htmarked⟩
      have hsome : (s'.takeDoc (trails s.line)).1 =
          some (String.ofList (Doc.normalize false body)) := by
        simp [takeDoc_eq, hs', hfound hall, trails, Doc.hasText, htext]
      refine ⟨iff_of_true ?_ ⟨hopens, hall⟩, iff_of_false ?_ fun h => hmarked h.2,
        iff_of_false ?_ hopens⟩
      · rw [htake, hsome]
      · simp [htake, hsome]
      · simp [htake]

/-- A comment beside the second token is found across a plain comment on the line below. -/
theorem takeTrailing_docBeside_plain_below :
    let s := ((ofString {} "a; /// beside\n// plain\nb").run [.next, .next]).2
    DocBeside s.reader.ahead [' '] " beside".toList "\n// plain\nb".toList ∧
      (s.takeTrailing s.line).1 = .ok (some "beside") := by
  intro s
  have hbeside : DocBeside s.reader.ahead [' '] " beside".toList "\n// plain\nb".toList :=
    ⟨by decide +kernel, by simp [Text.isIndent], by decide +kernel, .inr ⟨_, rfl⟩⟩
  have hidle : s.Idle := ⟨by decide +kernel, by decide +kernel⟩
  have hfound := takeTrailing_docBeside hidle (by decide +kernel) (by decide +kernel) hbeside
    (by decide +kernel)
  exact ⟨hbeside, hfound.1.mpr ⟨by decide +kernel, by decide +kernel⟩⟩

/-- A comment beside the session is lost to the one on the line below. -/
theorem takeTrailing_replaced_by_doc_below :
    let s := ofString {} "/// a\n/// b\nx"
    s.Idle ∧ s.options.everyComment = false ∧ s.slot = none ∧
      DocBeside s.reader.ahead [] " a".toList "\n/// b\nx".toList ∧
      String.ofList (Doc.normalize false " a".toList) = "a" ∧
      (s.takeTrailing s.line).1 = .ok none := by
  intro s
  have hbeside : DocBeside s.reader.ahead [] " a".toList "\n/// b\nx".toList :=
    ⟨by decide +kernel, by simp, by decide +kernel, .inr ⟨_, rfl⟩⟩
  exact ⟨⟨rfl, rfl⟩, rfl, rfl, hbeside, by decide +kernel, by decide +kernel⟩

end Session

end SchemaLex
