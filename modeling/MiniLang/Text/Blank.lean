/-
  Blank characters: what may stand between two tokens and is dropped.

  The class is the 29 characters whose bidirectional class is a paragraph, segment or white space
  separator, or whose category is a space separator.  It holds the information separators
  U+001C to U+001F, the next-line control U+0085, the no-break spaces and the line and paragraph
  separators; it does not hold the zero width space U+200B nor the byte order mark U+FEFF.
-/
import MiniLang.Text.Ranges

namespace MiniLang.Text

/-- The ranges of the blank characters. -/
def blankRanges : Ranges :=
  [(0x9, 0xD), (0x1C, 0x20), (0x85, 0x85), (0xA0, 0xA0), (0x1680, 0x1680), (0x2000, 0x200A),
   (0x2028, 0x2029), (0x202F, 0x202F), (0x205F, 0x205F), (0x3000, 0x3000)]

/-- May this character stand between two tokens? -/
def isBlank (c : Char) : Bool := blankRanges.holds c.toNat

theorem blankRanges_sorted : Ranges.SortedAbove 0 blankRanges := by decide

/-- Core's ASCII blanks are among them. -/
theorem isBlank_of_isWhitespace {c : Char} (h : c.isWhitespace = true) : isBlank c = true := by
  simp only [Char.isWhitespace, Bool.or_eq_true, decide_eq_true_eq] at h
  rcases h with ((rfl | rfl) | rfl) | rfl <;> decide

-- 29 characters in ten ranges
example : (blankRanges.map fun r => r.2 - r.1 + 1).sum = 29 := by decide
example : isBlank '\u2028' = true ∧ isBlank '\u200b' = false ∧ isBlank '\ufeff' = false := by decide

end MiniLang.Text
