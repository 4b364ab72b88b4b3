-- SUMMARY: A drained session brings the tokens of the one layout of its text.
import SchemaLex.Proofs.Layout
import SchemaLex.Proofs.Session.Scanning

/-!
# Sessions Follow Layouts

A session between two pieces brings the tokens of the next piece and then stands behind it
(`drain_of_piece`). A whole run follows by induction on the layout of what lies ahead.
-/

namespace SchemaLex

/-- The text without the byte order mark that it may start with. -/
def Text.dropMark : List Char → List Char
  | '\uFEFF' :: cs => cs
  | cs => cs

/-- The fault that a text with this ending leads to, if it leads to one. -/
def Ending.LeadsTo : Ending → Option Fault → Prop
  | .complete, none => True
  | .openComment _, some (.openComment _) => True
  | .openLiteral _ _, some (.openLiteral _) => True
  | _, _ => False

namespace Session

/-! ## One Piece -/

theorem skipGap_of_gap {s : Session} {gap : List Trivia} {rest : List Char}
    (hchars : s.reader.skipMark.ahead = gap.flatMap Trivia.chars ++ rest)
    (hgap : Trivia.IsGap gap rest) (hend : Trivia.read? rest = none) :
    s.skipGap.reader.ahead = rest := by
  rw [ahead_skipGap, hchars, Trivia.gap_append hgap hend]

/-- Behind the gap in front of a piece, a session takes the lexeme at the front of the piece. -/
theorem next_of_piece {s : Session} (hidle : s.Idle) {p : Piece} {rest : List Char}
    (hfits : p.Fits rest) (hahead : s.skipGap.reader.ahead = p.chars ++ rest) :
    s.next = (.ok (some p.opening.token), s.skipGap.takeLexeme p.opening) ∧
      (s.skipGap.takeLexeme p.opening).reader.behind ≠ [] := by
  obtain ⟨c, cs, hchars, -, hslash, hfirst⟩ := Piece.exists_front hfits
  rw [hchars] at hahead
  have hscan := scanLexeme_of_cons hahead fun hc => (hslash hc).2
  rw [hfirst] at hscan
  refine ⟨(next_of_idle hidle).trans hscan, ?_⟩
  apply Reader.behind_advance_ne_nil
  · rw [← hfirst]
    exact List.length_pos_iff.mpr (Lexeme.chars_first_ne_nil c cs)
  · simp [hahead]

/-- The tokens of a piece come next, and behind them the session is between two pieces again. -/
theorem drain_of_piece {s : Session} (hidle : s.Idle) {p : Piece} {rest : List Char}
    (hfits : p.Fits rest) (hahead : s.skipGap.reader.ahead = p.chars ++ rest) :
    ∃ s' : Session, s'.Idle ∧ s'.reader.behind ≠ [] ∧ s'.reader.ahead = rest ∧
      s.drain.tokens = p.tokens ++ s'.drain.tokens ∧ s.drain.fault = s'.drain.fault := by
  obtain ⟨hnext, hbehind⟩ := next_of_piece hidle hfits hahead
  have hdrain := drain_of_token hnext
  cases p with
  | word text =>
    refine ⟨s.skipGap.takeLexeme (.word text), ⟨hidle.queue, rfl⟩, hbehind, ?_, ?_, ?_⟩
    · simp [hahead, Piece.chars, Lexeme.chars]
    · rw [hdrain]
      rfl
    · rw [hdrain]
      rfl
  | mark c =>
    refine ⟨s.skipGap.takeLexeme (.mark c), ⟨hidle.queue, rfl⟩, hbehind, ?_, ?_, ?_⟩
    · simp [hahead, Piece.chars, Lexeme.chars]
    · rw [hdrain, Piece.tokens, String.singleton_eq_ofList]
      rfl
    · rw [hdrain]
      rfl
  | literal q body =>
    -- Three answers: the quote opens the literal, its body is scanned, the closing quote waits.
    generalize hopened : s.skipGap.takeLexeme (Piece.literal q body).opening = opened at *
    have hopen : opened.opened = some q := by rw [← hopened]; rfl
    have hqueue : opened.queue = [] := by rw [← hopened]; exact hidle.queue
    have hbody : opened.reader.ahead = body ++ q.char :: rest := by
      rw [← hopened]
      simp [hahead, Piece.chars, Piece.opening, Lexeme.chars]
    have hsplit := Literal.split?_eq_some_iff.mpr ⟨hbody, hfits⟩
    have hvalue := (next_of_opened hqueue hopen).trans (scanBody_of_some hsplit)
    let closed : Session := { opened.takeBody q body with queue := [] }
    have hclose : (opened.takeBody q body).next = (.ok (some q.token), closed) := by
      simp [next, hqueue, closed]
    have hrest : closed.reader.ahead = rest := by simp [closed, hbody]
    refine ⟨closed, ⟨rfl, rfl⟩, ?_, hrest, ?_, ?_⟩
    · simp [closed, behind_takeBody, hbehind]
    · rw [hdrain, drain_of_token hvalue, drain_of_token hclose]
      rfl
    · rw [hdrain, drain_of_token hvalue, drain_of_token hclose]

/-! ## The Last Gap -/

theorem drain_of_ending {s : Session} (hidle : s.Idle) {e : Ending} (hfits : e.Fits)
    (hahead : s.skipGap.reader.ahead = e.chars) :
    s.drain.tokens = e.tokens ∧ e.LeadsTo s.drain.fault := by
  cases e with
  | complete =>
    rw [drain_of_end ((next_of_idle hidle).trans (scanLexeme_of_end hahead))]
    exact ⟨rfl, trivial⟩
  | openComment body =>
    rw [drain_of_fault ((next_of_idle hidle).trans (scanLexeme_of_openComment hahead))]
    exact ⟨rfl, trivial⟩
  | openLiteral q body =>
    have hscan := scanLexeme_of_cons hahead fun hc => absurd hc q.char_ne_slash
    rw [Lexeme.first_quote] at hscan
    generalize hopened : s.skipGap.takeLexeme (.quote q) = opened at hscan
    have hopen : opened.opened = some q := by rw [← hopened]; rfl
    have hqueue : opened.queue = [] := by rw [← hopened]; exact hidle.queue
    have hbody : opened.reader.ahead = body := by
      rw [← hopened]
      simp [hahead, Ending.chars, Lexeme.chars]
    have hsplit := Literal.split?_eq_none_iff.mpr (hbody ▸ hfits)
    have hfault := (next_of_opened hqueue hopen).trans (scanBody_of_none hsplit)
    rw [drain_of_token ((next_of_idle hidle).trans hscan), drain_of_fault hfault]
    exact ⟨rfl, trivial⟩

/-! ## The Whole Run -/

/-- A session brings the tokens of the layout in front of it and ends as the layout does. -/
theorem drain_of_layout {s : Session} (hidle : s.Idle) {layout : Layout}
    (h : layout.Divides s.reader.skipMark.ahead) :
    s.drain.tokens = layout.tokens ∧ layout.ending.LeadsTo s.drain.fault := by
  obtain ⟨hchars, hfits⟩ := h
  induction layout generalizing s with
  | last gap e =>
    obtain ⟨hgap, he⟩ := hfits
    exact drain_of_ending hidle he (skipGap_of_gap hchars.symm hgap (Ending.read?_chars he))
  | more gap p rest ih =>
    obtain ⟨hgap, hp, hrest⟩ := hfits
    have hahead := skipGap_of_gap hchars.symm hgap (Piece.read?_chars_append hp)
    obtain ⟨s', hidle', hbehind, hahead', htokens, hfault⟩ := drain_of_piece hidle hp hahead
    have hlater : rest.chars = s'.reader.skipMark.ahead := by
      rw [Reader.skipMark_of_behind_ne_nil hbehind, hahead']
    obtain ⟨htokens', hends⟩ := ih hidle' hlater hrest
    rw [htokens, hfault, htokens']
    exact ⟨rfl, hends⟩

theorem ahead_skipMark_ofChars (cs : List Char) :
    (Reader.ofChars cs).skipMark.ahead = Text.dropMark cs := by
  cases cs with
  | nil => rfl
  | cons c cs =>
    by_cases hc : c = '\uFEFF'
    · subst hc
      rfl
    · have hdrop : Text.dropMark (c :: cs) = c :: cs := by simp [Text.dropMark, hc]
      simp [Reader.skipMark, Reader.ofChars, hc, hdrop]

/-- Every text has one layout, and a session over the text follows it: it brings the tokens of the
    layout in order and meets a fault exactly if the layout ends in something open. -/
theorem drain_follows_layout (options : Options) (text : String) :
    ∃ layout : Layout,
      (layout.Divides (Text.dropMark text.toList) ∧
        ∀ other : Layout, other.Divides (Text.dropMark text.toList) → other = layout) ∧
      (ofString options text).drain.tokens = layout.tokens ∧
      ((ofString options text).drain.fault = none ↔ layout.ending = .complete) ∧
      ((∃ line, (ofString options text).drain.fault = some (.openComment line)) ↔
        ∃ body, layout.ending = .openComment body) ∧
      ((∃ line, (ofString options text).drain.fault = some (.openLiteral line)) ↔
        ∃ q body, layout.ending = .openLiteral q body) := by
  obtain ⟨layout, hdivides⟩ := Layout.exists_divides (Text.dropMark text.toList)
  have hidle : (ofString options text).Idle := ⟨rfl, rfl⟩
  have hahead := ahead_skipMark_ofChars text.toList
  obtain ⟨htokens, hends⟩ := drain_of_layout hidle (hahead.symm ▸ hdivides)
  refine ⟨layout, ⟨hdivides, fun other hother => Layout.unique hother hdivides⟩, htokens, ?_⟩
  generalize (ofString options text).drain.fault = fault at hends
  cases hending : layout.ending with
  | complete => cases fault <;> simp_all [Ending.LeadsTo]
  | openComment body => rcases fault with _ | _ | _ | _ <;> simp_all [Ending.LeadsTo]
  | openLiteral q body => rcases fault with _ | _ | _ | _ <;> simp_all [Ending.LeadsTo]

end Session

end SchemaLex
