-- SUMMARY: Writing pieces and gaps as a text, and that a session reads them back.
import SchemaLex.Proofs.Session.Layout

/-!
# Rendering

Elements are pieces by what they stand for: a literal is its quote and its value. A rendered text
has its elements in order with spacing before, between and behind them. `drain_render` says that a
session over it brings the tokens of the elements and nothing else.
-/

namespace SchemaLex

/-! ## Literal Values -/

namespace Literal

/-- The body of a literal in the quotes `q` that stands for a value: every backslash and every `q`
    takes a backslash in front. -/
def encode (q : Quote) (value : List Char) : List Char :=
  value.flatMap fun c => if c = '\\' ∨ c = q.char then ['\\', c] else [c]

example : encode .double "say \"hi\"\\".toList = "say \\\"hi\\\"\\\\".toList := by decide

theorem escaped?_quote (q : Quote) : escaped? q.char = some q.char := by cases q <;> rfl

theorem isBody_encode (q : Quote) (value : List Char) : IsBody q (encode q value) := by
  induction value with
  | nil => exact isBody_nil q
  | cons c cs ih =>
    rw [encode, List.flatMap_cons]
    by_cases hc : c = '\\' ∨ c = q.char
    · rw [if_pos hc]
      exact isBody_escape.mpr ih
    · rw [if_neg hc]
      obtain ⟨hbackslash, hquote⟩ := not_or.mp hc
      exact (isBody_cons hbackslash hquote).mpr ih

/-- A body stands for the value that it was made from. -/
theorem decode_encode (q : Quote) (value : List Char) : decode (encode q value) = value := by
  induction value with
  | nil => rfl
  | cons c cs ih =>
    rw [encode, List.flatMap_cons]
    by_cases hc : c = '\\' ∨ c = q.char
    · have hescaped : escaped? c = some c := by
        rcases hc with rfl | rfl
        · rfl
        · exact escaped?_quote q
      rw [if_pos hc, List.cons_append, List.singleton_append, decode_escape, hescaped]
      exact congrArg (c :: ·) ih
    · rw [if_neg hc, List.singleton_append, decode_cons (not_or.mp hc).1]
      exact congrArg (c :: ·) ih

end Literal

/-! ## Elements and the Spacing between Them -/

/-- What a renderer writes as one piece. -/
inductive Element where
  | word (text : List Char) (isWord : Piece.IsWord text)
  | mark (c : Char) (stands : Lexeme.isPunctuation c ∨ c = '/')
  | literal (q : Quote) (value : List Char)

namespace Element

/-- The tokens that an element should come back as. -/
def tokens : Element → List String
  | word text _ => [String.ofList text]
  | mark c _ => [String.singleton c]
  | literal q value => [q.token, String.ofList value, q.token]

def piece : Element → Piece
  | word text _ => .word text
  | mark c _ => .mark c
  | literal q value => .literal q (Literal.encode q value)

def chars (e : Element) : List Char := e.piece.chars

theorem tokens_piece (e : Element) : e.piece.tokens = e.tokens := by
  cases e with
  | word text h => rfl
  | mark c h => rfl
  | literal q value => rw [piece, Piece.tokens, Literal.decode_encode, tokens]

end Element

/-- Spacing beside an element: a white space character, then white space and comments, each of which
    ends by itself whatever follows. -/
structure Spacing where
  lead : Char
  items : List Trivia
  isBlank_lead : Text.isBlank lead
  fits : ∀ t ∈ items, ∀ rest, t.Fits rest

namespace Spacing

def gap (spacing : Spacing) : List Trivia := .blank spacing.lead :: spacing.items

def chars (spacing : Spacing) : List Char := spacing.lead :: spacing.items.flatMap Trivia.chars

theorem isGap_gap (spacing : Spacing) (rest : List Char) : Trivia.IsGap spacing.gap rest := by
  have hitems : ∀ ts : List Trivia, (∀ t ∈ ts, ∀ rest, t.Fits rest) → Trivia.IsGap ts rest := by
    intro ts
    induction ts with
    | nil => exact fun _ => trivial
    | cons t ts ih =>
      intro h
      exact ⟨h t List.mem_cons_self _, ih fun u hu => h u (List.mem_cons_of_mem t hu)⟩
  exact ⟨spacing.isBlank_lead, hitems spacing.items spacing.fits⟩

end Spacing

/-- An element may stand in front of spacing: its piece ends where the spacing begins. -/
theorem Element.fits_piece (e : Element) (spacing : Spacing) (rest : List Char) :
    e.piece.Fits (spacing.chars ++ rest) := by
  have hlead := spacing.isBlank_lead
  cases e with
  | word text h =>
    refine ⟨h, fun c hc => ?_⟩
    obtain rfl : spacing.lead = c := Option.some.inj hc
    exact Lexeme.isDelimiter_of_isBlank hlead
  | mark c h =>
    have hslash : spacing.lead ≠ '/' := fun heq => absurd (heq ▸ hlead) (by decide)
    have hstar : spacing.lead ≠ '*' := fun heq => absurd (heq ▸ hlead) (by decide)
    exact h.imp_right fun hc => ⟨hc, by simpa [Spacing.chars] using hslash,
      by simpa [Spacing.chars] using hstar⟩
  | literal q value => exact Literal.isBody_encode q value

/-! ## Whole Texts -/

/-- The text with the given elements, each followed by its spacing. -/
def render (spacing : Spacing) : List (Element × Spacing) → List Char
  | [] => spacing.chars
  | (e, next) :: parts => spacing.chars ++ (e.chars ++ render next parts)

/-- The layout that the rendered text has. -/
def renderedLayout (spacing : Spacing) : List (Element × Spacing) → Layout
  | [] => .last spacing.gap .complete
  | (e, next) :: parts => .more spacing.gap e.piece (renderedLayout next parts)

theorem exists_render_eq_append (spacing : Spacing) (parts : List (Element × Spacing)) :
    ∃ rest, render spacing parts = spacing.chars ++ rest := by
  cases parts with
  | nil => exact ⟨[], (List.append_nil _).symm⟩
  | cons part parts => exact ⟨_, rfl⟩

theorem renderedLayout_divides (spacing : Spacing) (parts : List (Element × Spacing)) :
    (renderedLayout spacing parts).Divides (render spacing parts) := by
  induction parts generalizing spacing with
  | nil => exact ⟨List.append_nil _, spacing.isGap_gap _, trivial⟩
  | cons part parts ih =>
    obtain ⟨e, next⟩ := part
    obtain ⟨hchars, hfits⟩ := ih next
    obtain ⟨rest, hrest⟩ := exists_render_eq_append next parts
    refine ⟨?_, spacing.isGap_gap _, ?_, hfits⟩
    · rw [renderedLayout, Layout.chars, hchars]
      rfl
    · rw [hchars, hrest]
      exact e.fits_piece next rest

theorem tokens_renderedLayout (spacing : Spacing) (parts : List (Element × Spacing)) :
    (renderedLayout spacing parts).tokens = parts.flatMap fun part => part.1.tokens := by
  induction parts generalizing spacing with
  | nil => rfl
  | cons part parts ih =>
    rw [renderedLayout, Layout.tokens, ih, Element.tokens_piece, List.flatMap_cons]

theorem ending_renderedLayout (spacing : Spacing) (parts : List (Element × Spacing)) :
    (renderedLayout spacing parts).ending = .complete := by
  induction parts generalizing spacing with
  | nil => rfl
  | cons part parts ih => exact ih part.2

/-- A rendered text starts with white space, so with no byte order mark. -/
theorem dropMark_render (spacing : Spacing) (parts : List (Element × Spacing)) :
    Text.dropMark (render spacing parts) = render spacing parts := by
  obtain ⟨rest, hrest⟩ := exists_render_eq_append spacing parts
  have hlead : spacing.lead ≠ '\uFEFF' := fun heq => absurd (heq ▸ spacing.isBlank_lead) (by decide)
  rw [hrest]
  simp [Spacing.chars, Text.dropMark, hlead]

/-- What is rendered comes back: words and marks as themselves, each literal as its quote, its value
    and its quote again. -/
theorem Session.drain_render (options : Options) (spacing : Spacing)
    (parts : List (Element × Spacing)) :
    (Session.ofString options (String.ofList (render spacing parts))).drain.result =
      .ok (parts.flatMap fun part => part.1.tokens) := by
  have hidle : (Session.ofString options (String.ofList (render spacing parts))).Idle := ⟨rfl, rfl⟩
  have hahead :
      (Session.ofString options (String.ofList (render spacing parts))).reader.skipMark.ahead =
        render spacing parts := by
    rw [Session.ofString, String.toList_ofList, Session.ahead_skipMark_ofChars, dropMark_render]
  obtain ⟨htokens, hends⟩ :=
    Session.drain_of_layout hidle (hahead.symm ▸ renderedLayout_divides spacing parts)
  rw [ending_renderedLayout] at hends
  rw [tokens_renderedLayout] at htokens
  generalize (Session.ofString options _).drain = drained at htokens hends
  obtain ⟨tokens, fault, ended⟩ := drained
  cases fault with
  | none => exact congrArg Except.ok htokens
  | some fault => exact absurd hends id

end SchemaLex
