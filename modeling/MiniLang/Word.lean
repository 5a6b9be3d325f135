/-
  Machine words: the integers of a running program.

  A value is an integer in `[-2^63, 2^63)`.  Every sum, difference and product is formed exactly
  and then wrapped: `Word.wrap` picks the one member of that interval that differs from the exact
  result by a multiple of `2^64`.  A quotient is rounded toward zero, and the remainder goes with
  it, so it has the sign of the dividend.
-/

namespace MiniLang.Word

/-- The number of words, `2^64`. -/
def modulus : Nat := 0x10000000000000000

/-- The word congruent to `n` modulo `2^64`. -/
def wrap (n : Int) : Int := n.bmod modulus

/-- Is `n` a word?  The bounds are `-2^63` and `2^63`. -/
def InRange (n : Int) : Prop := -0x8000000000000000 ≤ n ∧ n < 0x8000000000000000

instance (n : Int) : Decidable (InRange n) := inferInstanceAs (Decidable (_ ∧ _))

/-- The exact quotient rounded toward zero, not wrapped; there is none for divisor zero. -/
def quotient? (l r : Int) : Option Int := if r = 0 then none else some (l.tdiv r)

/-! ## Laws of wrapping -/

theorem wrap_inRange (n : Int) : InRange (wrap n) := by
  have hlo : -((modulus : Int) / 2) ≤ wrap n := Int.le_bmod (by decide)
  have hhi : wrap n < ((modulus : Int) + 1) / 2 := Int.bmod_lt (by decide)
  simp only [modulus] at hlo hhi
  exact ⟨by omega, by omega⟩

/-- A word is its own wrapping. -/
theorem wrap_eq_self {n : Int} (h : InRange n) : wrap n = n := by
  obtain ⟨hlo, hhi⟩ := h
  apply Int.bmod_eq_of_le <;> simp only [modulus] <;> omega

/-- Wrapping changes a number by a multiple of `2^64` only. -/
theorem wrap_emod (n : Int) : wrap n % modulus = n % modulus := Int.bmod_emod

theorem wrap_wrap (n : Int) : wrap (wrap n) = wrap n := wrap_eq_self (wrap_inRange n)

example : wrap (2 ^ 63) = -2 ^ 63 ∧ wrap (2 ^ 64 - 1) = -1 ∧ wrap (-5) = -5 := by decide
example : quotient? (-7) 2 = some (-3) ∧ quotient? 7 (-2) = some (-3) ∧ quotient? 7 0 = none := by
  decide

end MiniLang.Word
