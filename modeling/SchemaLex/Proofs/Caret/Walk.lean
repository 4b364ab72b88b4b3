-- SUMMARY: However a caret came to its place, the place tells its line.
import SchemaLex.Caret.Walk
import SchemaLex.Proofs.Caret.Moves
import SchemaLex.Proofs.Text.Bytes

/-!
# Walks in a Text

A walk that makes only allowed moves keeps the line that its place tells: one more than the newlines
in front of it. What carries this is `Walk.Keeps`: the caret and each of its bookmarks are places of
readers that have counted the newlines behind them. So two walks that come to one place have one
caret there, whether they came by characters, by bytes or by a bookmark. Only one thing ends such a
walk early: bytes that lead to a place without an offset, be the end of the text nearer or not.
-/

namespace SchemaLex

namespace Reader

/-- The reader stands in the text and has counted the newlines behind it. -/
structure Tells (cs : List Char) (r : Reader) : Prop where
  source : r.source = cs
  line : r.line = 1 + r.behind.count '\n'

variable {cs : List Char} {r r' : Reader}

theorem tells_ofChars (cs : List Char) : (ofChars cs).Tells cs := ⟨rfl, rfl⟩

theorem Tells.advance (h : r.Tells cs) (n : Nat) : (r.advance n).Tells cs where
  source := (r.source_advance n).trans h.source
  line := by
    have hbehind : (r.advance n).behind = (r.ahead.take n).reverse ++ r.behind := rfl
    have hline : (r.advance n).line = r.line + (r.ahead.take n).count '\n' := rfl
    rw [hline, h.line, hbehind, List.count_append, List.count_reverse]
    omega

theorem Tells.line_le (h : r.Tells cs) : r.line ≤ cs.count '\n' + 1 := by
  rw [h.line, ← h.source, Reader.source, List.count_append, List.count_reverse]
  omega

theorem Tells.counted?_caret (hcs : cs.count '\n' < Caret.maxLine) (h : r.Tells cs) :
    r.caret.counted? = some r.caret :=
  if_pos (Nat.le_trans h.line_le hcs)

/-- The newline bytes in front of the place tell the line as well. -/
theorem Tells.line_eq_bytes (h : r.Tells cs) :
    r.line = 1 + ((Text.bytes cs).take r.caret.offset).count Text.newlineByte := by
  rw [← Text.newlinesBelow_eq, ← h.source, Reader.source, caret, Text.newlinesBelow_append,
    List.count_reverse, h.line]

/-- No two readers that tell the same text stand at one place. -/
theorem Tells.eq_of_offset (h : r.Tells cs) (h' : r'.Tells cs)
    (hoffset : r.caret.offset = r'.caret.offset) : r = r' := by
  have hsplit : Text.splitAt? cs r'.caret.offset = some (r.behind.reverse, r.ahead) := by
    rw [← h.source, ← hoffset]
    exact r.splitAt?_caret
  have hsplit' : Text.splitAt? cs r'.caret.offset = some (r'.behind.reverse, r'.ahead) := by
    rw [← h'.source]
    exact r'.splitAt?_caret
  obtain ⟨hreverse, hahead⟩ := Prod.mk.inj (Option.some.inj (hsplit.symm.trans hsplit'))
  have hbehind : r.behind = r'.behind := List.reverse_inj.mp hreverse
  have hline : r.line = r'.line := by rw [h.line, h'.line, hbehind]
  cases r
  cases r'
  simp_all

/-- A target at the edge of a character is the target of some of the characters ahead. -/
theorem exists_target_eq {count : Nat} (h : Text.IsEdge r.source (r.caret.target count)) :
    ∃ n, r.caret.target count = r.caret.target (Text.byteSize (r.ahead.take n)) := by
  obtain ⟨before, after, hsource, hsize⟩ := h
  have hle : r.caret.offset ≤ r.caret.target count := by
    have htext : Text.byteSize r.caret.text = r.caret.offset + Text.byteSize r.ahead :=
      r.byteSize_source
    rw [Caret.target, htext]
    omega
  have hoffset : r.caret.offset = Text.byteSize r.behind.reverse := rfl
  rcases List.append_eq_append_iff.mp hsource with ⟨more, hbefore, hahead⟩ | ⟨more, hbehind, hafter⟩
  · refine ⟨more.length, ?_⟩
    rw [target_caret, offset_caret_leap, hahead, List.take_left, ← hsize, hbefore,
      Text.byteSize_append, hoffset]
  · -- the target is not in front of the caret, so nothing lies in between
    refine ⟨0, ?_⟩
    have hnil : r.caret.target count = r.caret.offset := by
      rw [hoffset, hbehind, Text.byteSize_append] at hle ⊢
      omega
    rw [hnil, target_caret, offset_caret_leap, List.take_zero, Text.byteSize_nil, Nat.add_zero]

/-- Bytes that end at the edge of a character are the bytes of characters. -/
theorem exists_advanceBytes?_caret {count : Nat} (hoffset : r.caret.HasOffset count)
    (h : Text.IsEdge r.source (r.caret.target count)) :
    ∃ n, r.caret.advanceBytes? count = some (r.advance n).caret := by
  obtain ⟨n, htarget⟩ := exists_target_eq h
  have hmoved := r.advanceBytes?_caret n
  rw [Caret.advanceBytes?, ← htarget] at hmoved
  refine ⟨n, ?_⟩
  split at hmoved
  · next hstands => rw [Caret.advanceBytes?, if_pos ⟨hoffset, hstands.2⟩, hmoved]
  · cases hmoved

end Reader

namespace Walk

/-- The caret of the walk and its bookmarks are places of readers that tell the text. -/
structure Keeps (cs : List Char) (w : Walk) : Prop where
  caret : ∃ r : Reader, r.Tells cs ∧ w.caret = r.caret
  bookmarks : ∀ mark ∈ w.bookmarks, ∃ r : Reader, r.Tells cs ∧ mark = r.caret.bookmark

variable {cs : List Char} {w next : Walk} {r : Reader} {move : Move} {moves : List Move}

theorem keeps_ofString (text : String) : (ofString text).Keeps text.toList where
  caret := ⟨.ofChars text.toList, Reader.tells_ofChars _, rfl⟩
  bookmarks mark hmark := by cases hmark

theorem Keeps.moved (h : w.Keeps cs) (hr : r.Tells cs) : { w with caret := r.caret }.Keeps cs :=
  ⟨⟨r, hr, rfl⟩, h.bookmarks⟩

/-! ## Moves -/

theorem move?_advance (hcs : cs.count '\n' < Caret.maxLine) (hr : r.Tells cs)
    (hw : w.caret = r.caret) : w.move? .advance = some { w with caret := (r.advance 1).caret } := by
  rw [move?, hw, Caret.advance?, Reader.advanceBy?_caret, Option.bind_some,
    (hr.advance 1).counted?_caret hcs, Option.map_some]

theorem move?_advanceBy (hcs : cs.count '\n' < Caret.maxLine) (hr : r.Tells cs)
    (hw : w.caret = r.caret) (n : Nat) :
    w.move? (.advanceBy n) = some { w with caret := (r.advance n).caret } := by
  rw [move?, hw, Caret.moveBy?, Reader.advanceBy?_caret, Option.bind_some,
    (hr.advance n).counted?_caret hcs, Option.map_some]

theorem move?_advanceBytes (hcs : cs.count '\n' < Caret.maxLine) (hr : r.Tells cs)
    (hw : w.caret = r.caret) {count n : Nat}
    (hmoved : r.caret.advanceBytes? count = some (r.advance n).caret) :
    w.move? (.advanceBytes count) = some { w with caret := (r.advance n).caret } := by
  rw [move?, hw, hmoved, Option.bind_some, (hr.advance n).counted?_caret hcs, Option.map_some]

/-- Moving over one character again and again is moving over that many. -/
theorem run?_replicate_advance (hcs : cs.count '\n' < Caret.maxLine) (hr : r.Tells cs)
    (hw : w.caret = r.caret) (n : Nat) :
    w.run? (List.replicate n .advance) = some { w with caret := (r.advance n).caret } := by
  induction n generalizing w r with
  | zero => rw [List.replicate_zero, run?, Reader.advance_zero, ← hw]
  | succ n ih =>
    rw [List.replicate_succ, run?, move?_advance hcs hr hw, Option.bind_some,
      ih (hr.advance 1) rfl, Reader.advance_advance, Nat.add_comm]

/-- A move overruns if its bytes lead beyond 64 bits and beyond the text. -/
theorem overruns_iff :
    w.Overruns move ↔ ∃ count, move = .advanceBytes count ∧
      UInt64.size ≤ w.caret.offset + count ∧
      Text.byteSize w.caret.text < w.caret.offset + count := by
  constructor
  · intro h
    cases move with
    | advanceBytes count =>
      rw [Overruns, Caret.HasOffset, Nat.not_le, Nat.max_lt, Caret.maxOffset] at h
      exact ⟨count, rfl, by omega, h.2⟩
    | _ => exact h.elim
  · rintro ⟨count, rfl, hbits, htext⟩
    rw [Overruns, Caret.HasOffset, Nat.not_le, Nat.max_lt, Caret.maxOffset]
    rw [UInt64.size] at hbits ⊢
    exact ⟨by omega, htext⟩

theorem move?_of_overruns (h : w.Overruns move) : w.move? move = none := by
  cases move with
  | advanceBytes count =>
    have hstands : ¬ (w.caret.HasOffset count ∧ w.caret.offset ≤ Text.byteSize w.caret.text) :=
      fun hboth => h hboth.1
    rw [move?, Caret.advanceBytes?, if_neg hstands]
    rfl
  | _ => exact h.elim

/-- An allowed move is made unless it overruns, and leads to a place that tells its line. -/
theorem Keeps.exists_move (hcs : cs.count '\n' < Caret.maxLine) (h : w.Keeps cs)
    (hallows : w.Allows move) (hstays : ¬ w.Overruns move) :
    ∃ next, w.move? move = some next ∧ next.Keeps cs := by
  obtain ⟨r, hr, hw⟩ := h.caret
  cases move with
  | advance => exact ⟨_, move?_advance hcs hr hw, h.moved (hr.advance 1)⟩
  | advanceBy count => exact ⟨_, move?_advanceBy hcs hr hw count, h.moved (hr.advance count)⟩
  | advanceBytes count =>
    have hedge : Text.IsEdge r.source (r.caret.target count) := by
      rw [Allows, hw] at hallows
      exact hallows.2
    have hoffset : r.caret.HasOffset count := by
      rw [Overruns, hw] at hstays
      exact Decidable.not_not.mp hstays
    obtain ⟨n, hmoved⟩ := Reader.exists_advanceBytes?_caret hoffset hedge
    exact ⟨_, move?_advanceBytes hcs hr hw hmoved, h.moved (hr.advance n)⟩
  | bookmark =>
    refine ⟨_, rfl, h.caret, List.forall_mem_append.mpr ⟨h.bookmarks, ?_⟩⟩
    exact List.forall_mem_singleton.mpr ⟨r, hr, by rw [hw]⟩
  | goBack index =>
    obtain ⟨r', hr', hmark⟩ := h.bookmarks _ (List.getElem_mem hallows)
    have hback : w.caret.goTo w.bookmarks[index] = r'.caret := by
      simp [hw, hmark, Caret.goTo, Caret.bookmark, Reader.caret, hr.source, hr'.source]
    refine ⟨_, ?_, h.moved hr'⟩
    rw [move?, List.getElem?_eq_getElem hallows, Option.map_some, hback]

/-! ## Runs -/

theorem run?_append (w : Walk) (first last : List Move) :
    w.run? (first ++ last) = (w.run? first).bind fun next => next.run? last := by
  induction first generalizing w with
  | nil => rfl
  | cons move moves ih =>
    rw [List.cons_append, run?, run?]
    cases w.move? move with
    | none => rfl
    | some next => exact ih next

/-- Allowed moves lead to a place that tells its line, or one of them overruns. -/
theorem Keeps.exists_run_or (hcs : cs.count '\n' < Caret.maxLine) (h : w.Keeps cs)
    (hpermits : w.Permits moves) :
    (∃ last, w.run? moves = some last ∧ last.Keeps cs) ∨
      ∃ front move later last, moves = front ++ move :: later ∧ w.run? front = some last ∧
        last.Overruns move := by
  induction moves generalizing w with
  | nil => exact .inl ⟨w, rfl, h⟩
  | cons move moves ih =>
    obtain ⟨hallows, hlater⟩ := hpermits
    by_cases hoverruns : w.Overruns move
    · exact .inr ⟨[], move, moves, w, rfl, rfl, hoverruns⟩
    · obtain ⟨next, hmove, hnext⟩ := h.exists_move hcs hallows hoverruns
      rw [run?, hmove, Option.bind_some]
      refine (ih hnext (hlater next hmove)).imp_right ?_
      rintro ⟨front, move', later, last, rfl, hfront, hlast⟩
      exact ⟨move :: front, move', later, last, rfl, by rw [run?, hmove]; exact hfront, hlast⟩

theorem run?_of_overruns {front later : List Move} {last : Walk} (hfront : w.run? front = some last)
    (hoverruns : last.Overruns move) : w.run? (front ++ move :: later) = none := by
  rw [run?_append, hfront, Option.bind_some, run?, move?_of_overruns hoverruns]
  rfl

/-- A walk of allowed moves that comes to its end tells its line by its place. -/
theorem Keeps.of_run (hcs : cs.count '\n' < Caret.maxLine) (h : w.Keeps cs)
    (hpermits : w.Permits moves) (hrun : w.run? moves = some next) : next.Keeps cs := by
  rcases h.exists_run_or hcs hpermits with ⟨last, hlast, hkeeps⟩ | ⟨front, move, later, last, rfl,
    hfront, hoverruns⟩
  · obtain rfl := Option.some.inj (hrun.symm.trans hlast)
    exact hkeeps
  · cases hrun.symm.trans (run?_of_overruns hfront hoverruns)

/-- A walk of allowed moves, in a text with few enough newlines, ends early exactly where the sum of
    the offset and a count of bytes does not fit in 64 bits. Else it comes to an edge of the text,
    on the line that the newlines in front of it tell, be they counted among the characters or among
    the bytes. From there it is one to move over characters one by one, all at once or by their
    bytes. Another walk that comes to the same place has the same caret there. -/
theorem place_tells_line {text : String}
    (htext : text.toList.count '\n' < UInt32.size - 1)
    (hmoves : (ofString text).Permits moves) :
    ((ofString text).run? moves = none ↔
      ∃ front count later w, moves = front ++ .advanceBytes count :: later ∧
        (ofString text).run? front = some w ∧ UInt64.size ≤ w.caret.offset + count ∧
        Text.byteSize w.caret.text < w.caret.offset + count) ∧
    ∀ w, (ofString text).run? moves = some w → ∃ before after,
      w.caret.text = text.toList ∧ text.toList = before ++ after ∧
      w.caret.offset = Text.byteSize before ∧
      w.caret.offset ≤ Text.byteSize text.toList ∧
      w.caret.line = 1 + before.count '\n' ∧
      w.caret.line =
        1 + ((Text.bytes text.toList).take w.caret.offset).count Text.newlineByte ∧
      w.caret.line < UInt32.size ∧
      (∀ count, ∃ next, w.move? (.advanceBy count) = some next ∧
        w.move? (.advanceBytes (Text.byteSize (after.take count))) = some next ∧
        w.run? (List.replicate count .advance) = some next) ∧
      ∀ moves' w', (ofString text).Permits moves' → (ofString text).run? moves' = some w' →
        w'.caret.offset = w.caret.offset → w'.caret = w.caret := by
  have hcs : text.toList.count '\n' < Caret.maxLine := htext
  have hstart := keeps_ofString text
  refine ⟨⟨fun hnone => ?_, ?_⟩, fun w hrun => ?_⟩
  · rcases hstart.exists_run_or hcs hmoves with
      ⟨last, hlast, -⟩ | ⟨front, move, later, w, rfl, hfront, hoverruns⟩
    · cases hnone.symm.trans hlast
    · obtain ⟨count, rfl, hbeyond⟩ := overruns_iff.mp hoverruns
      exact ⟨front, count, later, w, rfl, hfront, hbeyond⟩
  · rintro ⟨front, count, later, w, rfl, hfront, hbeyond⟩
    exact run?_of_overruns hfront (overruns_iff.mpr ⟨count, rfl, hbeyond⟩)
  · obtain ⟨r, hr, hw⟩ := (hstart.of_run hcs hmoves hrun).caret
    refine ⟨r.behind.reverse, r.ahead, ?_⟩
    rw [hw]
    refine ⟨hr.source, hr.source.symm, rfl, ?_, ?_, hr.line_eq_bytes, ?_, fun count => ?_, ?_⟩
    · have hsize : Text.byteSize text.toList = r.caret.offset + Text.byteSize r.ahead := by
        rw [← hr.source]
        exact r.byteSize_source
      omega
    · rw [List.count_reverse]
      exact hr.line
    · have hline : r.caret.line ≤ text.toList.count '\n' + 1 := hr.line_le
      omega
    · exact ⟨_, move?_advanceBy hcs hr hw count,
        move?_advanceBytes hcs hr hw (r.advanceBytes?_caret count),
        run?_replicate_advance hcs hr hw count⟩
    · intro moves' w' hmoves' hrun' hoffset
      obtain ⟨r', hr', hw'⟩ := (hstart.of_run hcs hmoves' hrun').caret
      rw [hw'] at hoffset ⊢
      rw [hr'.eq_of_offset hr hoffset]

/-- The greatest count leads from behind the first character to the end of the text, and ends the
    walk. Less does not, behind a bookmark and in front of a character of two bytes. -/
theorem place_tells_line_greatest_count :
    ((ofString "ab").Permits [.advance, .advanceBytes (2 ^ 64 - 1)] ∧
        (ofString "ab").run? [.advance, .advanceBytes (2 ^ 64 - 1)] = none) ∧
      (ofString "a\nü\n").Permits
        [.advanceBy 2, .bookmark, .advance, .goBack 0, .advanceBytes 2, .goBack 0,
          .advanceBytes 9] ∧
      ∃ w, (ofString "a\nü\n").run?
          [.advanceBy 2, .bookmark, .advance, .goBack 0, .advanceBytes 2, .goBack 0,
            .advanceBytes 9] = some w ∧
        w.caret.line = 1 + ((Text.bytes "a\nü\n".toList).take w.caret.offset).count
          Text.newlineByte := by
  have hgreatest : (ofString "ab").Permits [.advance, .advanceBytes (2 ^ 64 - 1)] := by
    decide +kernel
  have hnone := (place_tells_line (by decide) hgreatest).1.mpr
    ⟨[.advance], 2 ^ 64 - 1, [], ⟨⟨['a', 'b'], 1, 1⟩, []⟩, rfl, rfl, by decide, by decide⟩
  have hmoves : (ofString "a\nü\n").Permits
      [.advanceBy 2, .bookmark, .advance, .goBack 0, .advanceBytes 2, .goBack 0,
        .advanceBytes 9] := by decide +kernel
  have hends : ((ofString "a\nü\n").run?
      [.advanceBy 2, .bookmark, .advance, .goBack 0, .advanceBytes 2, .goBack 0,
        .advanceBytes 9]).isSome := by decide +kernel
  obtain ⟨w, hrun⟩ := Option.isSome_iff_exists.mp hends
  obtain ⟨-, -, -, -, -, -, -, hline, -⟩ := (place_tells_line (by decide) hmoves).2 w hrun
  exact ⟨⟨hgreatest, hnone⟩, hmoves, w, hrun, hline⟩

end Walk

end SchemaLex
