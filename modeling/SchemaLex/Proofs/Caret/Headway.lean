-- SUMMARY: Every turn of every loop of the caret scanner leads nearer to the end of the text.
import SchemaLex.Caret.Scan

/-!
# Headway

The loops of the scanner check that each turn leads nearer to the end of the text. The check never
fails, wherever the caret stands: what a turn passes has a character at least, and a caret at the
end of the text finds nothing to pass. So no scan goes round for ever (`makesHeadway`).
-/

namespace SchemaLex.Caret

/-- The second caret stands in the text of the first and not in front of it. -/
structure Onward (c c' : Caret) : Prop where
  text : c'.text = c.text
  offset : c.offset ≤ c'.offset

/-- The second caret stands nearer to the end of the text than the first. -/
structure Nearer (c c' : Caret) : Prop extends Onward c c' where
  left : c'.left < c.left

/-- Each turn that a loop of the scanner takes from the caret leads nearer to the end of the text: a
    character of a word, a comment or an indentation, a line below a line comment, and an item of a
    gap. -/
structure MakesHeadway (c : Caret) : Prop where
  character : ∀ stop ∈ [atLineEnd, atIndentEnd, atCommentEnd, atWordEnd], stop c = false →
    ∀ next, c.moveBy? 1 = some next → next.left < c.left
  lineBelow : ∀ body behind next, c.nextLine? = some (some body, behind) →
    behind.passLineEnd? = some next → next.left < c.left
  item : ∀ everyComment doc next, c.item? everyComment = some (.passed doc, next) →
    next.left < c.left

variable {c c' c'' : Caret} {everyComment : Bool} {count : Nat}

theorem Onward.refl (c : Caret) : c.Onward c := ⟨rfl, Nat.le_refl _⟩

theorem Onward.trans (h : c.Onward c') (h' : c'.Onward c'') : c.Onward c'' :=
  ⟨h'.text.trans h.text, Nat.le_trans h.offset h'.offset⟩

theorem Onward.left_le (h : c.Onward c') : c'.left ≤ c.left := by
  have hoffset := h.offset
  unfold left
  rw [h.text]
  omega

theorem Onward.trans_nearer (h : c.Onward c') (h' : c'.Nearer c'') : c.Nearer c'' :=
  ⟨h.trans h'.toOnward, Nat.lt_of_lt_of_le h'.left h.left_le⟩

theorem Nearer.trans_onward (h : c.Nearer c') (h' : c'.Onward c'') : c.Nearer c'' :=
  ⟨h.toOnward.trans h', Nat.lt_of_le_of_lt h'.left_le h.left⟩

/-! ## Moves -/

/-- Only NUL stands at the end of the text. -/
theorem atEnd_of_current_ne (h : c.current ≠ '\x00') : c.atEnd = false := by
  cases hend : c.atEnd with
  | false => rfl
  | true =>
    have hle : Text.byteSize c.text ≤ c.offset := of_decide_eq_true hend
    unfold current charAt at h
    split at h
    · next before found after hsplit =>
      obtain ⟨htext, hsize⟩ := Text.eq_append_of_splitAt? hsplit
      have hpos := found.utf8Size_pos
      rw [htext, Text.byteSize_append, Text.byteSize_cons] at hle
      omega
    · exact absurd rfl h

theorem atEnd_of_current_eq {found : Char} (h : c.current = found) (hne : found ≠ '\x00') :
    c.atEnd = false :=
  atEnd_of_current_ne (h ▸ hne)

theorem eq_of_counted? (h : c.counted? = some c') : c' = c := by
  unfold counted? at h
  split at h
  · exact (Option.some.inj h).symm
  · cases h

theorem onward_of_advanceBy? (h : c.advanceBy? count = some c') : c.Onward c' := by
  unfold advanceBy? at h
  split at h
  · rw [← Option.some.inj h]
    exact .refl c
  · obtain ⟨after, -, rfl⟩ := Option.map_eq_some_iff.mp h
    exact ⟨rfl, Nat.le_add_right _ _⟩

/-- In front of the end a move over characters passes one at least. -/
theorem nearer_of_advanceBy? (hend : c.atEnd = false) (hcount : count ≠ 0)
    (h : c.advanceBy? count = some c') : c.Nearer c' := by
  refine ⟨onward_of_advanceBy? h, ?_⟩
  have hlt : c.offset < Text.byteSize c.text := by
    have : ¬ Text.byteSize c.text ≤ c.offset := of_decide_eq_false hend
    omega
  rw [advanceBy?, hend, beq_false_of_ne hcount, if_neg (by decide)] at h
  obtain ⟨_, hafter, rfl⟩ := Option.map_eq_some_iff.mp h
  obtain ⟨⟨before, after⟩, hsplit, rfl⟩ := Option.map_eq_some_iff.mp hafter
  obtain ⟨htext, hsize⟩ := Text.eq_append_of_splitAt? hsplit
  cases after with
  | nil =>
    rw [htext, List.append_nil, hsize] at hlt
    exact absurd hlt (Nat.lt_irrefl _)
  | cons found rest =>
    have hpos := found.utf8Size_pos
    obtain ⟨n, rfl⟩ := Nat.exists_eq_succ_of_ne_zero hcount
    simp only [left, List.take_succ_cons, Text.byteSize_cons]
    omega

theorem onward_of_moveBy? (h : c.moveBy? count = some c') : c.Onward c' := by
  obtain ⟨moved, hmove, hcounted⟩ := Option.bind_eq_some_iff.mp h
  rw [eq_of_counted? hcounted]
  exact onward_of_advanceBy? hmove

theorem nearer_of_moveBy? (hend : c.atEnd = false) (hcount : count ≠ 0)
    (h : c.moveBy? count = some c') : c.Nearer c' := by
  obtain ⟨moved, hmove, hcounted⟩ := Option.bind_eq_some_iff.mp h
  rw [eq_of_counted? hcounted]
  exact nearer_of_advanceBy? hend hcount hmove

theorem onward_of_passLineEnd? (h : c.passLineEnd? = some c') : c.Onward c' := by
  obtain ⟨moved, hmove, hcounted⟩ := Option.bind_eq_some_iff.mp h
  rw [eq_of_counted? hcounted]
  unfold endLine? at hmove
  split at hmove
  · rw [← Option.some.inj hmove]
    exact ⟨rfl, Nat.le_refl _⟩
  · exact onward_of_advanceBy? hmove

theorem onward_of_passUntil? {stop : Caret → Bool} (h : c.passUntil? stop = some c') :
    c.Onward c' := by
  fun_induction passUntil? stop c with
  | case1 c hstop =>
    rw [← Option.some.inj h]
    exact .refl c
  | case2 => cases h
  | case3 c hgoes next hnext hlt ih => exact (onward_of_moveBy? hnext).trans (ih h)
  | case4 => cases h

/-! ## Comments -/

theorem onward_of_restOfLine? {body : List Char} (h : c.restOfLine? = some (body, c')) :
    c.Onward c' := by
  obtain ⟨behind, hpass, hrest⟩ := Option.bind_eq_some_iff.mp h
  obtain ⟨crossed, -, heq⟩ := Option.bind_eq_some_iff.mp hrest
  obtain ⟨-, rfl⟩ := Prod.mk.inj (Option.some.inj heq)
  exact onward_of_passUntil? hpass

theorem atEnd_of_atLineMark (h : c.atLineMark) : c.atEnd = false :=
  atEnd_of_current_eq (eq_of_beq (Bool.and_eq_true_iff.mp h).1) (by decide)

theorem atEnd_of_atOpeningMark (h : c.atOpeningMark) : c.atEnd = false :=
  atEnd_of_current_eq (eq_of_beq (Bool.and_eq_true_iff.mp h).1) (by decide)

/-- A line below that is a comment is passed. A caret that finds none is set back. -/
theorem nearer_of_nextLine? {body? : Option (List Char)} (h : c.nextLine? = some (body?, c')) :
    c.Onward c' ∧ (body?.isSome → c.Nearer c') := by
  unfold nextLine? at h
  split at h
  · obtain ⟨rfl, rfl⟩ := Prod.mk.inj (Option.some.inj h)
    exact ⟨.refl c, fun hsome => nomatch hsome⟩
  · obtain ⟨indented, hindent, hline⟩ := Option.bind_eq_some_iff.mp h
    have hindented := onward_of_passUntil? hindent
    split at hline
    · next hmark =>
      obtain ⟨opened, hopen, hrest⟩ := Option.bind_eq_some_iff.mp hline
      obtain ⟨⟨body, behind⟩, hbody, heq⟩ := Option.bind_eq_some_iff.mp hrest
      obtain ⟨-, rfl⟩ := Prod.mk.inj (Option.some.inj heq)
      have hopened := nearer_of_moveBy? (atEnd_of_atLineMark hmark) (by decide) hopen
      have hnearer := (hindented.trans_nearer hopened).trans_onward (onward_of_restOfLine? hbody)
      exact ⟨hnearer.toOnward, fun _ => hnearer⟩
    · obtain ⟨rfl, rfl⟩ := Prod.mk.inj (Option.some.inj hline)
      exact ⟨⟨hindented.text, Nat.le_refl _⟩, fun hsome => nomatch hsome⟩

theorem onward_of_linesBelow? {line last : Nat} {bodies : List (List Char)}
    (h : c.linesBelow? line = some (bodies, last, c')) : c.Onward c' := by
  fun_induction linesBelow? line c generalizing bodies with
  | case1 => cases h
  | case2 line c stay hnone =>
    obtain ⟨-, -, rfl⟩ := h
    exact (nearer_of_nextLine? hnone).1
  | case3 => cases h
  | case4 line c body behind hbody next hnext hlt ih =>
    obtain ⟨⟨later, below⟩, hlater, heq⟩ := Option.map_eq_some_iff.mp h
    obtain ⟨-, rfl⟩ := Prod.mk.inj heq
    have hlower : next.Onward c' := ih hlater
    exact (nearer_of_nextLine? hbody).1.trans ((onward_of_passLineEnd? hnext).trans hlower)
  | case5 => cases h

/-- Two ways to go on alike are one way to go on behind a choice. -/
theorem exists_of_ite_bind {α β : Type} {p : Prop} [Decidable p] {first second : Option α}
    {rest : α → Option β} {found : β}
    (h : (if p then first.bind rest else second.bind rest) = some found) :
    ∃ start, (if p then first else second) = some start ∧ rest start = some found := by
  split at h
  · next hp =>
    rw [if_pos hp]
    exact Option.bind_eq_some_iff.mp h
  · next hp =>
    rw [if_neg hp]
    exact Option.bind_eq_some_iff.mp h

theorem onward_marker {p : Prop} [Decidable p]
    (h : (if p then c.moveBy? 1 else some c) = some c') : c.Onward c' := by
  split at h
  · exact onward_of_moveBy? h
  · rw [← Option.some.inj h]
    exact .refl c

/-- The two slashes of a line comment are passed, and the marker of one that is documentation. -/
theorem nearer_of_lineComment? {doc : Option Doc} (hmark : c.atLineMark)
    (h : c.lineComment? everyComment = some (doc, c')) : c.Nearer c' := by
  obtain ⟨alone, -, hafter⟩ := Option.bind_eq_some_iff.mp h
  obtain ⟨opened, hopen, hmarked⟩ := Option.bind_eq_some_iff.mp hafter
  obtain ⟨start, hstart, hbodied⟩ := exists_of_ite_bind hmarked
  obtain ⟨⟨body, behind⟩, hbody, hended⟩ := Option.bind_eq_some_iff.mp hbodied
  obtain ⟨next, hnext, hbelow⟩ := Option.bind_eq_some_iff.mp hended
  have hopened : c.Nearer opened := nearer_of_moveBy? (atEnd_of_atLineMark hmark) (by decide) hopen
  have hlower : next.Onward c' := by
    obtain ⟨⟨bodies, line, last⟩, hlast, heq⟩ := exists_of_ite_bind hbelow
    obtain ⟨-, rfl⟩ := Prod.mk.inj (Option.some.inj heq)
    split at hlast
    · exact onward_of_linesBelow? hlast
    · obtain ⟨-, -, rfl⟩ := hlast
      exact .refl next
  exact hopened.trans_onward ((onward_marker hstart).trans ((onward_of_restOfLine? hbody).trans
    ((onward_of_passLineEnd? hnext).trans hlower)))

theorem onward_of_blockBody? {body? : Option (List Char)} (h : c.blockBody? = some (body?, c')) :
    c.Onward c' := by
  obtain ⟨behind, hpass, hrest⟩ := Option.bind_eq_some_iff.mp h
  have hbehind := onward_of_passUntil? hpass
  split at hrest
  · obtain ⟨-, rfl⟩ := Prod.mk.inj (Option.some.inj hrest)
    exact hbehind
  · obtain ⟨body, -, hclosed⟩ := Option.bind_eq_some_iff.mp hrest
    obtain ⟨closed, hclose, heq⟩ := Option.bind_eq_some_iff.mp hclosed
    obtain ⟨-, rfl⟩ := Prod.mk.inj (Option.some.inj heq)
    exact hbehind.trans (onward_of_moveBy? hclose)

/-- The mark that opens a block comment is passed, whether the comment is closed or not. -/
theorem nearer_of_blockComment? {item : Item} (hmark : c.atOpeningMark)
    (h : c.blockComment? everyComment = some (item, c')) : c.Nearer c' := by
  obtain ⟨opened, hopen, hmarked⟩ := Option.bind_eq_some_iff.mp h
  obtain ⟨start, hstart, hbodied⟩ := exists_of_ite_bind hmarked
  obtain ⟨⟨body?, next⟩, hbody, hrest⟩ := Option.bind_eq_some_iff.mp hbodied
  have hopened : c.Nearer opened :=
    nearer_of_moveBy? (atEnd_of_atOpeningMark hmark) (by decide) hopen
  have hnext : c' = next := by
    cases body? with
    | none => exact (Prod.mk.inj (Option.some.inj hrest)).2.symm
    | some body => exact (Prod.mk.inj (Option.some.inj hrest)).2.symm
  rw [hnext]
  exact hopened.trans_onward ((onward_marker hstart).trans (onward_of_blockBody? hbody))

/-! ## Loops -/

theorem nearer_of_item? {doc : Option Doc} (h : c.item? everyComment = some (.passed doc, c')) :
    c.Nearer c' := by
  unfold item? at h
  split at h
  · cases h
  · next hend =>
    split at h
    · obtain ⟨next, hmove, heq⟩ := Option.map_eq_some_iff.mp h
      obtain ⟨-, rfl⟩ := Prod.mk.inj heq
      exact nearer_of_moveBy? (Bool.not_eq_true _ ▸ hend) (by decide) hmove
    · split at h
      · next hmark =>
        obtain ⟨⟨found, next⟩, hcomment, heq⟩ := Option.map_eq_some_iff.mp h
        obtain ⟨-, rfl⟩ := Prod.mk.inj heq
        exact nearer_of_lineComment? hmark hcomment
      · split at h
        · next hmark => exact nearer_of_blockComment? hmark h
        · cases h

/-- A loop that goes on over characters does not stand at the end of the text. -/
theorem atEnd_of_goes_on {stop : Caret → Bool}
    (hstop : stop ∈ [atLineEnd, atIndentEnd, atCommentEnd, atWordEnd]) (h : stop c = false) :
    c.atEnd = false := by
  simp only [List.mem_cons, List.not_mem_nil, or_false] at hstop
  rcases hstop with rfl | rfl | rfl | rfl
  · exact (Bool.or_eq_false_iff.mp h).1
  · refine atEnd_of_current_ne fun hnul => ?_
    rw [atIndentEnd, hnul] at h
    exact absurd h (by decide)
  · exact (Bool.or_eq_false_iff.mp h).1
  · exact (Bool.or_eq_false_iff.mp h).1

/-- No caret, wherever it stands, is led back to its place by a loop. -/
theorem makesHeadway (c : Caret) : c.MakesHeadway where
  character stop hstop hgoes next hnext :=
    (nearer_of_moveBy? (atEnd_of_goes_on hstop hgoes) (by decide) hnext).left
  lineBelow body behind next hbody hnext :=
    (((nearer_of_nextLine? hbody).2 rfl).trans_onward (onward_of_passLineEnd? hnext)).left
  item everyComment doc next hitem := (nearer_of_item? hitem).left

end SchemaLex.Caret
