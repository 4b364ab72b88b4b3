-- SUMMARY: The quoted form of a text in log messages.
import SchemaLex.Text.Shown

/-!
# Quoted Text

Log messages show a text in double quotes on one line: the quote and the backslash take a backslash
in front, NUL, newline, carriage return and tab are written as letters, and other characters that
are not shown by their code points. An apostrophe stands for itself.
-/

namespace SchemaLex.Text

/-- How one character is written between the quotes. -/
def quotedChar : Char → List Char
  | '"' => ['\\', '"']
  | '\\' => ['\\', '\\']
  | '\x00' => ['\\', '0']
  | '\n' => ['\\', 'n']
  | '\r' => ['\\', 'r']
  | '\t' => ['\\', 't']
  | c => if isShown c then [c] else ['\\', 'u', '\x7b'] ++ Nat.toDigits 16 c.toNat ++ ['\x7d']

/-- The text in double quotes, on one line. -/
def quoted (s : String) : String :=
  String.ofList ('"' :: s.toList.flatMap quotedChar ++ ['"'])

/-- A letter is shown, a no-break space and the accent behind a letter are not. -/
example : ['é', '\u00A0', 'e', '\u0301', '\x00'].flatMap quotedChar =
    "é\\u\x7ba0\x7de\\u\x7b301\x7d\\0".toList := by decide

end SchemaLex.Text
