/-
  Reading an integer from a text.

  Blanks around it do not matter; a sign may stand before it; its digits may be of any scripts, and
  single underscores may stand between two digits.  It has at most as many digits as a number in a
  program.  The information separators U+001C to U+001F count as blanks in a program, but not here.
-/
import MiniLang.Text.Blank
import MiniLang.Token.Lexer

namespace MiniLang.Text

/-- May this character stand around an integer? -/
def isPadding (c : Char) : Bool := isBlank c && !(0x1C ≤ c.toNat && c.toNat ≤ 0x1F)

/-- The text without the padding around it. -/
def unpad (cs : List Char) : List Char :=
  ((cs.dropWhile isPadding).reverse.dropWhile isPadding).reverse

/-- The digits of a row of digits with single underscores between them. -/
def digitRow? : List Char → Option (List Char)
  | [] => none
  | [c] => if isDigit c then some [c] else none
  | c :: '_' :: rest => if isDigit c then (digitRow? rest).map (c :: ·) else none
  | c :: d :: rest => if isDigit c then (digitRow? (d :: rest)).map (c :: ·) else none

/-- The number that a row of digits writes, if it is not too long. -/
def natural? (cs : List Char) : Option Nat :=
  match digitRow? cs with
  | some digits => if digits.length ≤ Token.digitLimit then some (decimalValue digits) else none
  | none => none

/-- The integer that a text writes. -/
def integer? (s : String) : Option Int :=
  match unpad s.toList with
  | '+' :: rest => (natural? rest).map Int.ofNat
  | '-' :: rest => (natural? rest).map fun n => -(n : Int)
  | cs => (natural? cs).map Int.ofNat

end MiniLang.Text
