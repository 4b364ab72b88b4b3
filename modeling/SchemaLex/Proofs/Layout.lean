-- SUMMARY: Texts as gaps and pieces: the one layout that every text has.
import SchemaLex.Lexeme
import SchemaLex.Literal.Escape
import SchemaLex.Proofs.Literal.Closing
import SchemaLex.Proofs.Trivia.Gap

/-!
# Layouts

A layout divides a text into gaps and pieces: gap, piece, gap, piece and so on, up to a last gap and
the place where the text ends. It says nothing of how a text is read; `Layout.unique` and
`exists_divides` say that every text has exactly one.
-/

namespace SchemaLex

/-- A part of a text that makes tokens. -/
inductive Piece where
  | word (text : List Char)
  | mark (c : Char)
  | literal (q : Quote) (body : List Char)

namespace Piece

def chars : Piece → List Char
  | word text => text
  | mark c => [c]
  | literal q body => q.char :: body ++ [q.char]

/-- The tokens of a piece: a literal makes three, its value between its quotes. -/
def tokens : Piece → List String
  | word text => [String.ofList text]
  | mark c => [String.singleton c]
  | literal q body => [q.token, String.ofList (Literal.decode body), q.token]

/-- The lexeme at the front of a piece. -/
def opening : Piece → Lexeme
  | word text => .word text
  | mark c => .mark c
  | literal q _ => .quote q

/-- The text can be a word. -/
structure IsWord (text : List Char) : Prop where
  ne_nil : text ≠ []
  slash : text.head? ≠ some '/'
  inside : ∀ c ∈ text, Lexeme.isDelimiter c = false

/-- The piece may stand in front of `rest`: a word runs to the next delimiter, a slash that stands
    alone opens no comment, a literal ends at the first quote that closes it. -/
def Fits : Piece → List Char → Prop
  | word text, rest => IsWord text ∧ ∀ c ∈ rest.head?, Lexeme.isDelimiter c
  | mark c, rest =>
    Lexeme.isPunctuation c ∨ c = '/' ∧ rest.head? ≠ some '/' ∧ rest.head? ≠ some '*'
  | literal q body, _ => Literal.IsBody q body

end Piece

/-- Where a text ends: behind a gap, in a block comment or in a literal. -/
inductive Ending where
  | complete
  | openComment (body : List Char)
  | openLiteral (q : Quote) (body : List Char)

namespace Ending

def chars : Ending → List Char
  | complete => []
  | openComment body => '/' :: '*' :: body
  | openLiteral q body => q.char :: body

/-- The quote of an open literal still makes a token. -/
def tokens : Ending → List String
  | openLiteral q _ => [q.token]
  | _ => []

/-- What is open stays open up to the end of the text. -/
def Fits : Ending → Prop
  | complete => True
  | openComment body => Trivia.NoClosingMark body
  | openLiteral q body => Literal.AllProtected q body

end Ending

/-- A text divided into gaps and pieces. -/
inductive Layout where
  | last (gap : List Trivia) (ending : Ending)
  | more (gap : List Trivia) (piece : Piece) (rest : Layout)

namespace Layout

def chars : Layout → List Char
  | last gap ending => gap.flatMap Trivia.chars ++ ending.chars
  | more gap piece rest => gap.flatMap Trivia.chars ++ (piece.chars ++ rest.chars)

def tokens : Layout → List String
  | last _ ending => ending.tokens
  | more _ piece rest => piece.tokens ++ rest.tokens

def ending : Layout → Ending
  | last _ ending => ending
  | more _ _ rest => rest.ending

/-- Every part ends where it should. -/
def Fits : Layout → Prop
  | last gap ending => Trivia.IsGap gap ending.chars ∧ ending.Fits
  | more gap piece rest =>
    Trivia.IsGap gap (piece.chars ++ rest.chars) ∧ piece.Fits rest.chars ∧ rest.Fits

/-- The layout is one of the text. -/
structure Divides (layout : Layout) (cs : List Char) : Prop where
  chars : layout.chars = cs
  fits : layout.Fits

end Layout

/-! ## Classes of Characters -/

theorem Quote.not_isBlank (q : Quote) : Text.isBlank q.char = false := by cases q <;> decide

theorem Quote.char_ne_slash (q : Quote) : q.char ≠ '/' := by cases q <;> decide

namespace Lexeme

theorem isDelimiter_of_isBlank {c : Char} (h : Text.isBlank c) : isDelimiter c := by
  simp [isDelimiter, h]

theorem isDelimiter_of_isPunctuation {c : Char} (h : isPunctuation c) : isDelimiter c := by
  simp [isDelimiter, h]

theorem not_isBlank_of_isPunctuation {c : Char} (h : isPunctuation c) : Text.isBlank c = false := by
  unfold isPunctuation at h
  split at h <;> first | decide | simp at h

theorem ofChar?_of_isPunctuation {c : Char} (h : isPunctuation c) : Quote.ofChar? c = none := by
  unfold isPunctuation at h
  split at h <;> first | decide | simp at h

theorem not_isDelimiter_iff {c : Char} :
    isDelimiter c = false ↔
      Text.isBlank c = false ∧ isPunctuation c = false ∧ Quote.ofChar? c = none := by
  simp [isDelimiter, and_assoc]

/-! ## The Lexeme at the Front -/

theorem first_quote (q : Quote) (rest : List Char) : first q.char rest = quote q := by
  simp [first]

theorem first_mark {c : Char} (h : isPunctuation c ∨ c = '/') (rest : List Char) :
    first c rest = mark c := by
  unfold first
  rcases h with h | rfl
  · simp [ofChar?_of_isPunctuation h, isDelimiter_of_isPunctuation h]
  · rfl

theorem first_word {c : Char} (hslash : c ≠ '/') (h : isDelimiter c = false) (rest : List Char) :
    first c rest = word (c :: rest.takeWhile fun d => !isDelimiter d) := by
  simp [first, (not_isDelimiter_iff.mp h).2.2, hslash, h]

end Lexeme

/-! ## The Front of a Piece -/

/-- A piece starts with a character that ends the gap in front of it, and the lexeme that starts
    there is the piece or the quote that opens it. -/
theorem Piece.exists_front {p : Piece} {rest : List Char} (h : p.Fits rest) :
    ∃ c cs, p.chars ++ rest = c :: cs ∧ Text.isBlank c = false ∧
      (c = '/' → cs.head? ≠ some '/' ∧ cs.head? ≠ some '*') ∧
      Lexeme.first c cs = p.opening := by
  cases p with
  | word text =>
    obtain ⟨⟨hne, hslash, hinside⟩, hnext⟩ := h
    obtain ⟨c, cs, rfl⟩ := List.exists_cons_of_ne_nil hne
    have hc : c ≠ '/' := fun heq => hslash (by rw [heq]; rfl)
    have hdelimiter := hinside c List.mem_cons_self
    have hblank := (Lexeme.not_isDelimiter_iff.mp hdelimiter).1
    have hplain : ∀ d ∈ cs, (!Lexeme.isDelimiter d) = true := fun d hd => by
      simp [hinside d (List.mem_cons_of_mem c hd)]
    have hstop : (rest.takeWhile fun d => !Lexeme.isDelimiter d) = [] := by
      cases rest with
      | nil => rfl
      | cons d ds => simp [hnext d rfl]
    refine ⟨c, cs ++ rest, rfl, hblank, fun heq => absurd heq hc, ?_⟩
    rw [Lexeme.first_word hc hdelimiter, List.takeWhile_append_of_pos hplain, hstop,
      List.append_nil]
    rfl
  | mark c =>
    have hfirst := Lexeme.first_mark (h.imp_right And.left) rest
    rcases h with hpunctuation | ⟨rfl, hslash⟩
    · refine ⟨c, rest, rfl, Lexeme.not_isBlank_of_isPunctuation hpunctuation, ?_, hfirst⟩
      rintro rfl
      exact absurd hpunctuation (by decide)
    · exact ⟨'/', rest, rfl, by decide, fun _ => hslash, hfirst⟩
  | literal q body =>
    refine ⟨q.char, body ++ [q.char] ++ rest, rfl, q.not_isBlank, ?_, Lexeme.first_quote q _⟩
    exact fun heq => absurd heq q.char_ne_slash

theorem Piece.read?_chars_append {p : Piece} {rest : List Char} (h : p.Fits rest) :
    Trivia.read? (p.chars ++ rest) = none := by
  obtain ⟨c, cs, heq, hblank, hslash, -⟩ := Piece.exists_front h
  exact Trivia.read?_eq_none_iff.mpr (.inr (.inr ⟨c, cs, heq, hblank, hslash⟩))

theorem Ending.read?_chars {e : Ending} (h : e.Fits) : Trivia.read? e.chars = none := by
  rw [Trivia.read?_eq_none_iff]
  cases e with
  | complete => exact .inl rfl
  | openComment body => exact .inr (.inl ⟨body, rfl, h⟩)
  | openLiteral q body =>
    refine .inr (.inr ⟨q.char, body, rfl, q.not_isBlank, ?_⟩)
    exact fun heq => absurd heq q.char_ne_slash

/-! ## At Most One Layout -/

theorem Piece.unique {p p' : Piece} {rest rest' : List Char} (h : p.Fits rest)
    (h' : p'.Fits rest') (heq : p.chars ++ rest = p'.chars ++ rest') : p = p' ∧ rest = rest' := by
  have hopening : p.opening = p'.opening := by
    obtain ⟨c, cs, hchars, -, -, hfirst⟩ := Piece.exists_front h
    obtain ⟨c', cs', hchars', -, -, hfirst'⟩ := Piece.exists_front h'
    obtain ⟨rfl, rfl⟩ := List.cons.inj (hchars.symm.trans (heq.trans hchars'))
    exact hfirst.symm.trans hfirst'
  cases p with
  | word text =>
    cases p' with
    | word text' =>
      obtain rfl : text = text' := Lexeme.word.inj hopening
      exact ⟨rfl, List.append_cancel_left heq⟩
    | mark c => cases hopening
    | literal q body => cases hopening
  | mark c =>
    cases p' with
    | word text => cases hopening
    | mark c' =>
      obtain rfl : c = c' := Lexeme.mark.inj hopening
      exact ⟨rfl, List.append_cancel_left heq⟩
    | literal q body => cases hopening
  | literal q body =>
    cases p' with
    | word text => cases hopening
    | mark c => cases hopening
    | literal q' body' =>
      obtain rfl : q = q' := Lexeme.quote.inj hopening
      have hbodies : body ++ q.char :: rest = body' ++ q.char :: rest' := by
        simpa [Piece.chars] using heq
      obtain ⟨rfl, rfl⟩ := Literal.IsBody.unique h h' hbodies
      exact ⟨rfl, rfl⟩

/-- Where a piece starts, the text does not end. -/
theorem Piece.chars_append_ne {p : Piece} {e : Ending} {rest : List Char} (h : p.Fits rest)
    (he : e.Fits) : p.chars ++ rest ≠ e.chars := by
  obtain ⟨c, cs, hchars, -, hslash, hfirst⟩ := Piece.exists_front h
  intro heq
  rw [hchars] at heq
  cases e with
  | complete => cases heq
  | openComment body =>
    obtain ⟨rfl, rfl⟩ := List.cons.inj heq
    exact (hslash rfl).2 rfl
  | openLiteral q body =>
    obtain ⟨rfl, rfl⟩ := List.cons.inj heq
    rw [Lexeme.first_quote] at hfirst
    cases p with
    | word text => cases hfirst
    | mark c => cases hfirst
    | literal q' inner =>
      obtain rfl : q = q' := Lexeme.quote.inj hfirst
      have hbody : cs = inner ++ q.char :: rest := by
        simpa [Piece.chars] using (List.cons.inj hchars).2.symm
      exact absurd (he inner rest hbody) (Literal.IsBody.behind h)

theorem Ending.chars_injective {e e' : Ending} (h : e.chars = e'.chars) : e = e' := by
  cases e with
  | complete => cases e' <;> first | rfl | cases h
  | openComment body =>
    cases e' with
    | complete => cases h
    | openComment body' => exact congrArg openComment (List.cons.inj (List.cons.inj h).2).2
    | openLiteral q body' => exact absurd (List.cons.inj h).1.symm q.char_ne_slash
  | openLiteral q body =>
    cases e' with
    | complete => cases h
    | openComment body' => exact absurd (List.cons.inj h).1 q.char_ne_slash
    | openLiteral q' body' =>
      obtain ⟨hq, rfl⟩ := List.cons.inj h
      have hquote := (Quote.ofChar?_char q).symm.trans (hq ▸ Quote.ofChar?_char q')
      rw [Option.some.inj hquote]

namespace Layout

theorem unique {l l' : Layout} {cs : List Char} (h : l.Divides cs) (h' : l'.Divides cs) :
    l = l' := by
  obtain ⟨hchars, hfits⟩ := h
  obtain ⟨hchars', hfits'⟩ := h'
  have heq := hchars.trans hchars'.symm
  clear hchars hchars'
  induction l generalizing l' with
  | last g e =>
    obtain ⟨hgap, he⟩ := hfits
    cases l' with
    | last g' e' =>
      obtain ⟨hgap', he'⟩ := hfits'
      obtain ⟨rfl, hend⟩ :=
        Trivia.IsGap.unique hgap (Ending.read?_chars he) hgap' (Ending.read?_chars he') heq
      rw [Ending.chars_injective hend]
    | more g' p' r' =>
      obtain ⟨hgap', hp', -⟩ := hfits'
      obtain ⟨-, hend⟩ :=
        Trivia.IsGap.unique hgap (Ending.read?_chars he) hgap' (Piece.read?_chars_append hp') heq
      exact absurd hend.symm (Piece.chars_append_ne hp' he)
  | more g p r ih =>
    obtain ⟨hgap, hp, hr⟩ := hfits
    cases l' with
    | last g' e' =>
      obtain ⟨hgap', he'⟩ := hfits'
      obtain ⟨-, hend⟩ :=
        Trivia.IsGap.unique hgap (Piece.read?_chars_append hp) hgap' (Ending.read?_chars he') heq
      exact absurd hend (Piece.chars_append_ne hp he')
    | more g' p' r' =>
      obtain ⟨hgap', hp', hr'⟩ := hfits'
      obtain ⟨rfl, hpieces⟩ :=
        Trivia.IsGap.unique hgap (Piece.read?_chars_append hp) hgap'
          (Piece.read?_chars_append hp') heq
      obtain ⟨rfl, hrest⟩ := Piece.unique hp hp' hpieces
      rw [ih hr hr' hrest]

end Layout

/-! ## At Least One Layout -/

/-- At a character that ends a gap stands a piece, or the quote of a literal that stays open. -/
theorem Piece.exists_of_front {c : Char} {cs : List Char} (hblank : Text.isBlank c = false)
    (hslash : c = '/' → cs.head? ≠ some '/' ∧ cs.head? ≠ some '*') :
    (∃ p rest, Piece.chars p ++ rest = c :: cs ∧ p.Fits rest) ∨
      ∃ q, c = q.char ∧ Literal.AllProtected q cs := by
  by_cases hmark : Lexeme.isPunctuation c ∨ c = '/'
  · exact .inl ⟨.mark c, cs, rfl, hmark.imp_right fun hc => ⟨hc, hslash hc⟩⟩
  · obtain ⟨hpunctuation, hc⟩ := not_or.mp hmark
    cases hquote : Quote.ofChar? c with
    | some q =>
      obtain rfl := Quote.ofChar?_eq_some_iff.mp hquote
      cases hsplit : Literal.split? q cs with
      | none => exact .inr ⟨q, rfl, Literal.split?_eq_none_iff.mp hsplit⟩
      | some found =>
        obtain ⟨hbody, hfits⟩ := Literal.split?_eq_some_iff.mp hsplit
        exact .inl ⟨.literal q found.1, found.2, by simp [chars, hbody], hfits⟩
    | none =>
      have hdelimiter : Lexeme.isDelimiter c = false :=
        Lexeme.not_isDelimiter_iff.mpr ⟨hblank, Bool.eq_false_iff.mpr hpunctuation, hquote⟩
      let plain := fun d => !Lexeme.isDelimiter d
      refine .inl ⟨.word (c :: cs.takeWhile plain), cs.dropWhile plain, ?_, ⟨?_, ?_, ?_⟩, ?_⟩
      · simp [chars]
      · simp
      · simpa using hc
      · intro d hd
        rcases List.mem_cons.mp hd with rfl | hinside
        · exact hdelimiter
        · simpa [plain] using List.all_eq_true.mp List.all_takeWhile d hinside
      · intro d hd
        have hstop := List.head?_dropWhile_not plain cs
        rw [Option.mem_def.mp hd] at hstop
        simpa [plain] using hstop

theorem Piece.chars_ne_nil {p : Piece} {rest : List Char} (h : p.Fits rest) : p.chars ≠ [] := by
  cases p with
  | word text => exact h.1.ne_nil
  | mark c => simp [chars]
  | literal q body => simp [chars]

theorem Layout.exists_divides (cs : List Char) : ∃ layout : Layout, layout.Divides cs := by
  induction hlength : cs.length using Nat.strongRecOn generalizing cs with
  | ind n ih =>
    have hchars := Trivia.flatMap_chars_gap cs
    have hgap := Trivia.isGap_gap cs
    have hend := Trivia.read?_gap cs
    generalize (Trivia.gap cs).1 = items at hchars hgap
    generalize (Trivia.gap cs).2 = rest at hchars hgap hend
    rcases Trivia.read?_eq_none_iff.mp hend with
      rfl | ⟨body, rfl, hopen⟩ | ⟨c, tail, rfl, hblank, hslash⟩
    · exact ⟨.last items .complete, hchars, hgap, trivial⟩
    · exact ⟨.last items (.openComment body), hchars, hgap, hopen⟩
    · rcases Piece.exists_of_front hblank hslash with ⟨p, rest, hp, hfits⟩ | ⟨q, rfl, hopen⟩
      · have hshorter : rest.length < n := by
          have hpos := List.length_pos_iff.mpr (Piece.chars_ne_nil hfits)
          rw [← hlength, ← hchars, ← hp]
          simp only [List.length_append]
          omega
        obtain ⟨later, rfl, hlater⟩ := ih rest.length hshorter rest rfl
        refine ⟨.more items p later, ?_, ?_, hfits, hlater⟩
        · rw [Layout.chars, hp, hchars]
        · rw [hp]
          exact hgap
      · exact ⟨.last items (.openLiteral q tail), hchars, hgap, hopen⟩

end SchemaLex
