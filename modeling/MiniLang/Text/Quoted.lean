/-
  Quoting a text so that it stands on one line and can be told from its surroundings.

  The text stands between apostrophes, or between double quotes if it holds an apostrophe and no
  double quote.  Inside, a backslash and the quote at use get a backslash before them; line feed,
  carriage return and tab are `\n`, `\r` and `\t`; and any other character that is not printable is
  written by its code point, as `\x` with two, `\u` with four or `\U` with eight hexadecimal digits.
-/
import MiniLang.Text.Printable

namespace MiniLang.Text

/-- The last `width` hexadecimal digits of a number. -/
def hexDigits : (width : Nat) → Nat → List Char
  | 0, _ => []
  | width + 1, n => hexDigits width (n / 16) ++ [Nat.digitChar (n % 16)]

/-- A character by its code point. -/
def codePoint (c : Char) : List Char :=
  let n := c.toNat
  if n < 0x100 then '\\' :: 'x' :: hexDigits 2 n
  else if n < 0x10000 then '\\' :: 'u' :: hexDigits 4 n
  else '\\' :: 'U' :: hexDigits 8 n

/-- A character inside quotes. -/
def quoteChar (quote c : Char) : List Char :=
  if c = quote ∨ c = '\\' then ['\\', c]
  else if c = '\n' then ['\\', 'n']
  else if c = '\r' then ['\\', 'r']
  else if c = '\t' then ['\\', 't']
  else if isPrintable c then [c]
  else codePoint c

/-- The quote for a text. -/
def quoteFor (cs : List Char) : Char := if '\'' ∈ cs ∧ '"' ∉ cs then '"' else '\''

/-- A text between quotes. -/
def quoted (s : String) : String :=
  let cs := s.toList
  let quote := quoteFor cs
  String.ofList (quote :: cs.flatMap (quoteChar quote) ++ [quote])

example : codePoint '\u200b' = ['\\', 'u', '2', '0', '0', 'b'] := by decide

end MiniLang.Text
