/-
  Decimal digits and other numerals, as of Unicode 14.

  * A decimal digit is a character of the category Nd.  They come in runs of ten consecutive code
    points, so a run is given by its zero, and the value of a digit is its distance from the zero.
    Digits of different scripts may stand in one number.
  * The other numerals (superscripts, fractions, Roman and counting numerals) have no place in a
    number, but may continue a name.
-/
import MiniLang.Text.Letter

namespace MiniLang.Text

/-! ## Decimal digits -/

/-- The zeros of the runs of decimal digits, in increasing order. -/
def digitZeros : List Nat :=
  [0x30, 0x660, 0x6F0, 0x7C0, 0x966, 0x9E6, 0xA66, 0xAE6, 0xB66, 0xBE6, 0xC66, 0xCE6, 0xD66,
   0xDE6, 0xE50, 0xED0, 0xF20, 0x1040, 0x1090, 0x17E0, 0x1810, 0x1946, 0x19D0, 0x1A80, 0x1A90,
   0x1B50, 0x1BB0, 0x1C40, 0x1C50, 0xA620, 0xA8D0, 0xA900, 0xA9D0, 0xA9F0, 0xAA50, 0xABF0,
   0xFF10, 0x104A0, 0x10D30, 0x11066, 0x110F0, 0x11136, 0x111D0, 0x112F0, 0x11450, 0x114D0,
   0x11650, 0x116C0, 0x11730, 0x118E0, 0x11950, 0x11C50, 0x11D50, 0x11DA0, 0x16A60, 0x16AC0,
   0x16B50, 0x1D7CE, 0x1D7D8, 0x1D7E2, 0x1D7EC, 0x1D7F6, 0x1E140, 0x1E2F0, 0x1E950, 0x1FBF0]

/-- Looks for the run of ten that holds `n`; the zeros are sorted, so the walk stops at the first
    zero above `n`. -/
def digitIn : List Nat → Nat → Option Nat
  | [], _ => none
  | start :: rest, n =>
    if n < start then none else if n < start + 10 then some (n - start) else digitIn rest n

/-- The value of a decimal digit, and `none` for any other character. -/
def digitValue? (c : Char) : Option Nat := digitIn digitZeros c.toNat

/-- Is this character a decimal digit of some script? -/
def isDigit (c : Char) : Bool := (digitValue? c).isSome

theorem digitIn_lt : ∀ {zeros : List Nat} {n v : Nat}, digitIn zeros n = some v → v < 10 := by
  intro zeros
  induction zeros with
  | nil => intro n v h; simp [digitIn] at h
  | cons start rest ih =>
    intro n v h
    unfold digitIn at h
    split at h
    · simp at h
    · split at h
      · simp only [Option.some.injEq] at h; omega
      · exact ih h

/-- A digit's value is below ten. -/
theorem digitValue?_lt {c : Char} {v : Nat} (h : digitValue? c = some v) : v < 10 := digitIn_lt h

/-- The number that a run of digits writes: each digit counts ten times less than the one before
    it.  A character that is no digit counts as nothing. -/
def decimalValue (cs : List Char) : Nat :=
  cs.foldl (fun n c => 10 * n + (digitValue? c).getD 0) 0

example : decimalValue ['4', '\u0662'] = 42 := by decide -- an ASCII four and an Arabic-Indic two

/-! ## Other numerals and the characters of a name -/

/-- The ranges of the characters with a numeric value that are neither letters nor decimal
    digits. -/
def numeralRanges : Ranges :=
  [(0xB2, 0xB3), (0xB9, 0xB9), (0xBC, 0xBE), (0x9F4, 0x9F9), (0xB72, 0xB77), (0xBF0, 0xBF2),
   (0xC78, 0xC7E), (0xD58, 0xD5E), (0xD70, 0xD78), (0xF2A, 0xF33), (0x1369, 0x137C),
   (0x16EE, 0x16F0), (0x17F0, 0x17F9), (0x19DA, 0x19DA), (0x2070, 0x2070), (0x2074, 0x2079),
   (0x2080, 0x2089), (0x2150, 0x2182), (0x2185, 0x2189), (0x2460, 0x249B), (0x24EA, 0x24FF),
   (0x2776, 0x2793), (0x2CFD, 0x2CFD), (0x3007, 0x3007), (0x3021, 0x3029), (0x3038, 0x303A),
   (0x3192, 0x3195), (0x3220, 0x3229), (0x3248, 0x324F), (0x3251, 0x325F), (0x3280, 0x3289),
   (0x32B1, 0x32BF), (0xA6E6, 0xA6EF), (0xA830, 0xA835), (0x10107, 0x10133), (0x10140, 0x10178),
   (0x1018A, 0x1018B), (0x102E1, 0x102FB), (0x10320, 0x10323), (0x10341, 0x10341),
   (0x1034A, 0x1034A), (0x103D1, 0x103D5), (0x10858, 0x1085F), (0x10879, 0x1087F),
   (0x108A7, 0x108AF), (0x108FB, 0x108FF), (0x10916, 0x1091B), (0x109BC, 0x109BD),
   (0x109C0, 0x109CF), (0x109D2, 0x109FF), (0x10A40, 0x10A48), (0x10A7D, 0x10A7E),
   (0x10A9D, 0x10A9F), (0x10AEB, 0x10AEF), (0x10B58, 0x10B5F), (0x10B78, 0x10B7F),
   (0x10BA9, 0x10BAF), (0x10CFA, 0x10CFF), (0x10E60, 0x10E7E), (0x10F1D, 0x10F26),
   (0x10F51, 0x10F54), (0x10FC5, 0x10FCB), (0x11052, 0x11065), (0x111E1, 0x111F4),
   (0x1173A, 0x1173B), (0x118EA, 0x118F2), (0x11C5A, 0x11C6C), (0x11FC0, 0x11FD4),
   (0x12400, 0x1246E), (0x16B5B, 0x16B61), (0x16E80, 0x16E96), (0x1D2E0, 0x1D2F3),
   (0x1D360, 0x1D378), (0x1E8C7, 0x1E8CF), (0x1EC71, 0x1ECAB), (0x1ECAD, 0x1ECAF),
   (0x1ECB1, 0x1ECB4), (0x1ED01, 0x1ED2D), (0x1ED2F, 0x1ED3D), (0x1F100, 0x1F10C)]

/-- May this character begin a name? -/
def isNameStart (c : Char) : Bool := c == '_' || isLetter c

/-- May this character continue a name? -/
def isNameRest (c : Char) : Bool :=
  isNameStart c || isDigit c || numeralRanges.holds c.toNat

/-- What begins a name may also continue one. -/
theorem isNameRest_of_isNameStart {c : Char} (h : isNameStart c = true) : isNameRest c = true := by
  simp [isNameRest, h]

/-- A digit may continue a name. -/
theorem isNameRest_of_isDigit {c : Char} (h : isDigit c = true) : isNameRest c = true := by
  simp [isNameRest, h]

end MiniLang.Text
