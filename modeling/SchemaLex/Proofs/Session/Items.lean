-- SUMMARY: The items a session makes up come to an end: tokens, at most one fault, then nothing.
import SchemaLex.Proofs.Caret.Headway
import SchemaLex.Proofs.Session.Final
import SchemaLex.Proofs.Session.Lines
import SchemaLex.Proofs.Session.OnCaret

/-!
# Items

The tokens that a session brings and the fault that may end it are the items of a sequence. Each
scan that brings a token moves the session on, by a character at least, and one token at most waits
behind it. So a text of `n` characters makes `3 * n / 2` tokens at most, and behind its last item
the sequence brings nothing ever again: `items_come_to_an_end`.
-/

namespace SchemaLex

/-- The items, in order: the tokens and behind them the fault. -/
def Drained.items (d : Drained) : List (Except Fault String) :=
  d.tokens.map .ok ++ d.fault.toList.map .error

/-- A reader that has less ahead of it has moved on. -/
theorem Reader.Onward.offset_lt {r r' : Reader} (h : r.Onward r') (hsource : r'.source = r.source)
    (hahead : r'.ahead.length < r.ahead.length) : r.caret.offset < r'.caret.offset := by
  obtain ⟨crossed, hbehind⟩ := h.behind
  have hlength := congrArg List.length hsource
  have hcrossed : crossed.reverse ≠ [] := by
    rintro hnil
    obtain rfl := List.reverse_eq_nil_iff.mp hnil
    simp only [source, List.length_append, List.length_reverse, ← hbehind, List.nil_append]
      at hlength
    omega
  have hpos := Text.byteSize_pos hcrossed
  simp only [caret, ← hbehind, List.reverse_append, Text.byteSize_append]
  omega

namespace Session

/-- The item behind `k` others, if there are so many. -/
def itemAt (s : Session) : Nat → Option (Except Fault String)
  | 0 => s.item.1
  | k + 1 => s.item.2.itemAt k

variable {s s' : Session} {token : String}

/-! ## Moving On -/

theorem source_skipGap (s : Session) : s.skipGap.reader.source = s.reader.source :=
  (Reader.source_foldl_pass _ _).trans s.reader.source_skipMark

theorem source_scanBody (s : Session) (q : Quote) :
    (s.scanBody q).2.reader.source = s.reader.source := by
  unfold scanBody
  split
  · exact s.reader.source_toEnd
  · dsimp only
    split
    · exact s.reader.source_advance _
    · exact s.reader.source_leap _

theorem source_scanLexeme (s : Session) : s.scanLexeme.2.reader.source = s.reader.source := by
  refine Eq.trans ?_ s.source_skipGap
  unfold scanLexeme
  dsimp only
  split
  · rfl
  · exact (Reader.source_toEnd _).trans (Reader.source_advance _ _)
  · exact Reader.source_advance _ _

/-- A scan reads on in the text and leaves it as it is. -/
theorem source_scan (s : Session) : s.scan.2.reader.source = s.reader.source := by
  unfold scan
  split
  · exact s.source_scanBody _
  · exact s.source_scanLexeme

theorem length_ahead_lt_of_scan (h : s.scan = (.ok (some token), s')) :
    s'.reader.ahead.length < s.reader.ahead.length := by
  unfold scan at h
  split at h
  · exact (scanBody_shrinks h).1
  · exact (scanLexeme_shrinks h).1

/-- A scan that brings a token moves the session on. -/
theorem offset_lt_of_scan (h : s.scan = (.ok (some token), s')) :
    s.reader.caret.offset < s'.reader.caret.offset := by
  have honward := s.onward_scan
  have hsource := s.source_scan
  rw [h] at honward hsource
  exact honward.offset_lt hsource (length_ahead_lt_of_scan h)

/-! ## Counting -/

/-- Each token costs a weight of two. -/
theorem length_tokens_drain (s : Session) : 2 * s.drain.tokens.length ≤ s.weight := by
  fun_induction drain s with
  | case1 s token s' hnext hlighter later ih =>
    change 2 * (s'.drain.tokens.length + 1) ≤ s.weight
    omega
  | case2 => simp
  | case3 => simp

theorem weight_ofString (options : Options) (text : String) :
    (ofString options text).weight = 3 * text.length := by
  simp [weight, ofString, Reader.ofChars, String.length_toList]

/-! ## The Sequence -/

theorem items_of_item {first : Except Fault String} (h : s.item = (some first, s')) :
    s.drain.items = first :: s'.drain.items := by
  unfold item at h
  split at h
  · next token t hnext =>
    obtain ⟨hfirst, rfl⟩ := Prod.mk.inj h
    rw [← Option.some.inj hfirst, drain_of_token hnext]
    rfl
  · cases h
  · next fault t hnext =>
    obtain ⟨hfirst, rfl⟩ := Prod.mk.inj h
    have hended := ended_of_next hnext (by simp)
    rw [← Option.some.inj hfirst, drain_of_fault hnext, drain_of_end hended.next]
    rfl

theorem items_of_last (h : s.item = (none, s')) : s.drain.items = [] ∧ s'.drain.items = [] := by
  unfold item at h
  split at h
  · cases h
  · next t hnext =>
    obtain ⟨-, rfl⟩ := Prod.mk.inj h
    have hended := ended_of_next hnext (by simp)
    rw [drain_of_end hnext, drain_of_end hended.next]
    exact ⟨rfl, rfl⟩
  · cases h

/-- The sequence is that of the drained session, and nothing comes behind it. -/
theorem itemAt_eq (s : Session) (k : Nat) : s.itemAt k = s.drain.items[k]? := by
  induction k generalizing s with
  | zero =>
    rcases hitem : s.item with ⟨_ | first, s'⟩
    · rw [itemAt, hitem, (items_of_last hitem).1]
      rfl
    · rw [itemAt, hitem, items_of_item hitem]
      rfl
  | succ k ih =>
    rcases hitem : s.item with ⟨_ | first, s'⟩
    · obtain ⟨hitems, hitems'⟩ := items_of_last hitem
      rw [itemAt, hitem, ih s', hitems, hitems']
      rfl
    · rw [itemAt, hitem, ih s', items_of_item hitem]
      rfl

/-- A text has finitely many items, however it is read. No loop of a scan goes round for ever. A
    scan brings a token and moves on, or it brings none. Of the items the tokens come first, three
    for two characters at most, then a fault if one is met, and then nothing. -/
theorem items_come_to_an_end (options : Options) (text : String) :
    (∀ c : Caret, c.MakesHeadway) ∧
      (∀ calls, UInt32.size - 3 < text.toList.count '\n' ∨
        ((CaretSession.ofString options text).run? (calls ++ [.next])).isSome) ∧
      (∀ s : Session, s.queue = [] →
        (∃ token, s.next.1 = .ok (some token) ∧
          s.reader.caret.offset < s.next.2.reader.caret.offset) ∨
        s.next.1 = .ok none ∨ ∃ fault, s.next.1 = .error fault) ∧
      ∃ (tokens : List String) (fault : Option Fault), tokens.length ≤ 3 * text.length / 2 ∧
        ∀ k, (ofString options text).itemAt k =
          (tokens.map .ok ++ fault.toList.map .error : List (Except Fault String))[k]? := by
  refine ⟨Caret.makesHeadway, ?_, ?_, ?_⟩
  · intro calls
    refine (Nat.lt_or_ge _ _).imp id fun hfew => ?_
    have hmax : text.toList.count '\n' + 2 ≤ Caret.maxLine := by
      simp only [Caret.maxLine, UInt32.size] at hfew ⊢
      omega
    have hanswers := answers_run hmax (within_ofString options text) (calls ++ [.next])
    exact Option.isSome_iff_exists.mpr ⟨_, hanswers.eq⟩
  · intro s hqueue
    have hnext : s.next = s.scan := by rw [next, hqueue]
    rcases hscan : s.scan with ⟨fault | _ | token, s'⟩
    · exact .inr (.inr ⟨fault, by rw [hnext, hscan]⟩)
    · exact .inr (.inl (by rw [hnext, hscan]))
    · refine .inl ⟨token, by rw [hnext, hscan], ?_⟩
      rw [hnext, hscan]
      exact offset_lt_of_scan hscan
  · refine ⟨(ofString options text).drain.tokens, (ofString options text).drain.fault, ?_,
      (ofString options text).itemAt_eq⟩
    have hcount := (ofString options text).length_tokens_drain
    rw [weight_ofString] at hcount
    omega

/-- The bound is met: two quotes make three tokens. -/
example : (ofString ⟨false, false⟩ "''").drain.tokens = ["'", "", "'"] := by decide +kernel

end Session

end SchemaLex
