-- SUMMARY: The lexemes: words, marks and quotes, and the one at the front of a text.
import SchemaLex.Text.Blank
import SchemaLex.Literal

/-!
# Lexemes

What stands between gaps. A mark is one of twelve characters that always stand alone, or a slash at
the front of a lexeme. A quote opens a literal. Everything else makes up words, each as long as it
can be.
-/

namespace SchemaLex

/-- A unit of the text that makes a token. -/
inductive Lexeme where
  /-- A run of characters that are neither white space nor delimiters. -/
  | word (text : List Char)
  /-- A character that stands alone. -/
  | mark (c : Char)
  /-- A quote that opens a literal. -/
  | quote (q : Quote)
  deriving DecidableEq

namespace Lexeme

/-- The twelve punctuation characters. -/
def isPunctuation (c : Char) : Bool :=
  match c with
  | '{' | '}' | '=' | ';' | ':' | '[' | ']' | ',' | '(' | ')' | '<' | '>' => true
  | _ => false

/-- The characters that end a word: white space, punctuation and quotes. -/
def isDelimiter (c : Char) : Bool :=
  Text.isBlank c || isPunctuation c || (Quote.ofChar? c).isSome

/-- The characters of a lexeme. -/
def chars : Lexeme → List Char
  | word text => text
  | mark c => [c]
  | quote q => [q.char]

/-- The token that a lexeme makes. -/
def token (l : Lexeme) : String := String.ofList l.chars

/-- The quote that a lexeme is, if it is one. -/
def quote? : Lexeme → Option Quote
  | quote q => some q
  | _ => none

/-- The lexeme that starts with the character `c` in front of `rest`. -/
def first (c : Char) (rest : List Char) : Lexeme :=
  match Quote.ofChar? c with
  | some q => quote q
  | none =>
    if c = '/' || isDelimiter c then mark c
    else word (c :: rest.takeWhile fun d => !isDelimiter d)

/-- The lexeme stands at the front of the text. -/
theorem exists_eq_chars_first_append (c : Char) (rest : List Char) :
    ∃ tail, c :: rest = (first c rest).chars ++ tail := by
  unfold first
  split
  · next q h => exact ⟨rest, by simp [chars, Quote.ofChar?_eq_some_iff.mp h]⟩
  · split
    · exact ⟨rest, by simp [chars]⟩
    · exact ⟨rest.dropWhile fun d => !isDelimiter d, by
        simp [chars, List.takeWhile_append_dropWhile]⟩

theorem chars_first_ne_nil (c : Char) (rest : List Char) : (first c rest).chars ≠ [] := by
  unfold first
  split
  · simp [chars]
  · split <;> simp [chars]

end Lexeme

end SchemaLex
