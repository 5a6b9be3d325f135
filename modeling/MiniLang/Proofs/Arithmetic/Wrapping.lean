/-
  Machine arithmetic.

  The operators form their results exactly and wrap them, and this is the arithmetic of 64-bit
  words in two's complement.

  1. **Wrapping** — `wrap n` is the one word that differs from `n` by a multiple of `2^64`.  So it
     may be done before a sum, a difference or a product, or after it, or both.
  2. **Rounding** — `towardZero q` is the rational `q` without its fraction.  Quotients are rounded
     so, whatever the signs and however large the integers.
  3. **Division** — of two words, of which the second is not zero, only one quotient is no word and
     has to be wrapped, `-2^63` by `-1`; and no remainder has to.
-/
import Mathlib.Data.Rat.Floor
import MiniLang.Machine.Eval

namespace MiniLang

namespace Word

/-! ## Wrapping -/

theorem inRange_iff {w : Int} : InRange w ↔ -2 ^ 63 ≤ w ∧ w < 2 ^ 63 := by
  unfold InRange
  norm_num

/-- Of the integers that differ by a multiple of `2^64`, one is a word. -/
theorem wrap_eq_iff {n w : Int} : wrap n = w ↔ InRange w ∧ (2 ^ 64 : Int) ∣ n - w := by
  constructor
  · rintro rfl
    refine ⟨wrap_inRange n, ?_⟩
    have hclass : (modulus : Int) ∣ wrap n - n := Int.dvd_bmod_sub_self
    rw [← Int.neg_sub]
    exact (Int.dvd_neg.mpr hclass)
  · rintro ⟨hw, k, hk⟩
    have hn : n = w + modulus * k := by
      rw [show (modulus : Int) = 2 ^ 64 from rfl, ← hk]
      omega
    rw [hn, wrap, Int.add_mul_bmod_self_left]
    exact wrap_eq_self hw

theorem wrap_add (a b : Int) : wrap (wrap a + wrap b) = wrap (a + b) := by
  rw [wrap, wrap, wrap, wrap, Int.bmod_add_bmod, Int.add_bmod_bmod]

theorem wrap_sub (a b : Int) : wrap (wrap a - wrap b) = wrap (a - b) := by
  rw [wrap, wrap, wrap, wrap, Int.bmod_sub_bmod, Int.sub_bmod_bmod]

theorem wrap_mul (a b : Int) : wrap (wrap a * wrap b) = wrap (a * b) := by
  rw [wrap, wrap, wrap, wrap, Int.bmod_mul_bmod, Int.mul_bmod_bmod]

/-- Wrapping is reading 64 bits in two's complement. -/
theorem wrap_eq_toInt (n : Int) : wrap n = (BitVec.ofInt 64 n).toInt := by
  rw [BitVec.toInt_ofInt]
  rfl

/-! ## Rounding -/

/-- A rational number without its fraction. -/
def towardZero (q : ℚ) : ℤ := if 0 ≤ q then ⌊q⌋ else ⌈q⌉

theorem towardZero_neg (q : ℚ) : towardZero (-q) = -towardZero q := by
  unfold towardZero
  rcases lt_trichotomy q 0 with hneg | rfl | hpos
  · rw [if_pos (by linarith), if_neg (by linarith), Int.floor_neg]
  · simp
  · rw [if_neg (by linarith), if_pos hpos.le, Int.ceil_neg]

/-- Division of integers that drops the fraction, for all signs. -/
theorem tdiv_eq_towardZero (l r : Int) : l.tdiv r = towardZero (l / r) := by
  have hnat : ∀ a b : Nat, (a : Int).tdiv b = towardZero ((a : Int) / (b : Int) : ℚ) := by
    intro a b
    have hpos : (0 : ℚ) ≤ (a : Int) / (b : Int) := by positivity
    rw [towardZero, if_pos hpos, Int.cast_natCast b, Rat.floor_intCast_div_natCast]
    exact Int.tdiv_eq_ediv_of_nonneg (Int.natCast_nonneg a)
  obtain ⟨a, rfl | rfl⟩ := l.eq_nat_or_neg <;> obtain ⟨b, rfl | rfl⟩ := r.eq_nat_or_neg
  · exact hnat a b
  · rw [Int.tdiv_neg, Int.cast_neg, div_neg, towardZero_neg, hnat]
  · rw [Int.neg_tdiv, Int.cast_neg, neg_div, towardZero_neg, hnat]
  · rw [Int.neg_tdiv, Int.tdiv_neg, Int.neg_neg, Int.cast_neg, Int.cast_neg, neg_div_neg_eq, hnat]

theorem quotient?_eq {l r : Int} (hr : r ≠ 0) : quotient? l r = some (towardZero (l / r)) := by
  rw [quotient?, if_neg hr, tdiv_eq_towardZero]

/-! ## Division -/

/-- A quotient is no larger than what is divided, and as large only by one or minus one. -/
theorem natAbs_tdiv_lt {l r : Int} (hl : l ≠ 0) (hr : 1 < r.natAbs) :
    (l.tdiv r).natAbs < l.natAbs := by
  rw [Int.natAbs_tdiv]
  exact Nat.div_lt_self (Int.natAbs_pos.mpr hl) hr

/-- Only one quotient of two words is no word. -/
theorem inRange_tdiv {l r : Int} (hl : InRange l) (hr : r ≠ 0)
    (hother : ¬ (l = -2 ^ 63 ∧ r = -1)) : InRange (l.tdiv r) := by
  obtain ⟨hlow, hhigh⟩ := hl
  rcases lt_trichotomy r.natAbs 1 with hzero | hone | hmore
  · omega
  · -- by one nothing changes, and by minus one only the sign
    rcases Int.natAbs_eq_iff.mp hone with rfl | rfl
    · rw [Int.natCast_one, Int.tdiv_one]
      exact ⟨hlow, hhigh⟩
    · rw [Int.natCast_one, Int.tdiv_neg, Int.tdiv_one]
      have hne : l ≠ -0x8000000000000000 := fun h => hother ⟨h, rfl⟩
      exact ⟨by omega, by omega⟩
  · by_cases hzero : l = 0
    · rw [hzero, Int.zero_tdiv]
      decide
    · have hlt := natAbs_tdiv_lt hzero hmore
      exact ⟨by omega, by omega⟩

/-- A remainder is smaller than the divisor, and no larger than what is divided. -/
theorem inRange_tmod {l : Int} (hl : InRange l) (r : Int) : InRange (l.tmod r) := by
  obtain ⟨hlow, hhigh⟩ := hl
  have hle : (l.tmod r).natAbs ≤ l.natAbs := by
    rw [Int.natAbs_tmod]
    exact Nat.mod_le _ _
  have hsign := Int.sign_tmod l r
  by_cases hneg : l < 0
  · exact ⟨by omega, by
      by_contra hge
      rw [Int.sign_eq_neg_one_of_neg hneg, Int.sign_eq_one_of_pos (by omega)] at hsign
      split at hsign <;> omega⟩
  · exact ⟨by omega, by omega⟩

/-- The quotient `q` and the remainder `v` of two words, of which the second is not zero. -/
structure Division (l r q v : Int) : Prop where
  quotient : q = wrap (towardZero (l / r))
  /-- One quotient is changed by wrapping. -/
  wraps : q ≠ towardZero (l / r) ↔ l = -2 ^ 63 ∧ r = -1
  wrapped : l = -2 ^ 63 → r = -1 → q = -2 ^ 63
  /-- No remainder is changed by wrapping. -/
  remainder : v = l - r * towardZero (l / r)
  smaller : |v| < |r|
  sign : v = 0 ∨ v.sign = l.sign
  whole : wrap (r * q + v) = l

theorem division_of_inRange {l r : Int} (hl : InRange l) (hr : r ≠ 0) :
    Division l r (wrap (l.tdiv r)) (wrap (l - r * l.tdiv r)) := by
  have hrest : l - r * l.tdiv r = l.tmod r := (Int.tmod_def l r).symm
  rw [hrest, wrap_eq_self (inRange_tmod hl r)]
  refine {
    quotient := by rw [tdiv_eq_towardZero]
    wraps := ?_
    wrapped := ?_
    remainder := by rw [← tdiv_eq_towardZero, hrest]
    smaller := ?_
    sign := ?_
    whole := ?_ }
  · rw [← tdiv_eq_towardZero]
    constructor
    · intro hne
      exact Classical.byContradiction fun hother => hne (wrap_eq_self (inRange_tdiv hl hr hother))
    · rintro ⟨rfl, rfl⟩
      decide
  · rintro rfl rfl
    decide
  · rw [Int.abs_eq_natAbs, Int.abs_eq_natAbs, Int.natAbs_tmod, Int.ofNat_lt]
    exact Nat.mod_lt _ (Int.natAbs_pos.mpr hr)
  · have hsign := Int.sign_tmod l r
    split at hsign
    · exact .inl (Int.sign_eq_zero_iff_zero.mp hsign)
    · exact .inr hsign
  · calc wrap (r * wrap (l.tdiv r) + l.tmod r)
        = wrap (r * l.tdiv r + l.tmod r) := by
          rw [← wrap_add, ← wrap_mul, wrap_wrap, wrap_mul, wrap_add]
      _ = l := by rw [Int.mul_tdiv_add_tmod, wrap_eq_self hl]

end Word

open Word

/-- **Machine arithmetic.**  Wrapping picks the one word in the class of an integer; it changes no
    word, and may be done before sums, differences and products as well as after them.  On words
    these three operators are the ones of 64 bits in two's complement; quotients are rounded toward
    zero, and remainders belong to them; and a zero divisor fails, without a change of the state.
    The quotient of any two integers is rounded toward zero. -/
theorem machine_arithmetic :
    (∀ n w, wrap n = w ↔ (-2 ^ 63 ≤ w ∧ w < 2 ^ 63) ∧ (2 ^ 64 : Int) ∣ n - w) ∧
    (∀ n, InRange n → wrap n = n) ∧ (∀ n, wrap (wrap n) = wrap n) ∧
    (∀ a b, wrap (wrap a + wrap b) = wrap (a + b) ∧ wrap (wrap a - wrap b) = wrap (a - b) ∧
      wrap (wrap a * wrap b) = wrap (a * b)) ∧
    (∀ l r, InRange l → InRange r → ∀ (span : Span) (m : Machine),
      Eval.operate span .plus l r m = .ok (BitVec.ofInt 64 l + BitVec.ofInt 64 r).toInt m ∧
      Eval.operate span .minus l r m = .ok (BitVec.ofInt 64 l - BitVec.ofInt 64 r).toInt m ∧
      Eval.operate span .star l r m = .ok (BitVec.ofInt 64 l * BitVec.ofInt 64 r).toInt m ∧
      (r ≠ 0 → ∃ q v, Eval.operate span .slash l r m = .ok q m ∧
        Eval.operate span .percent l r m = .ok v m ∧ Division l r q v) ∧
      (r = 0 → ∀ op ∈ [Token.Kind.slash, .percent],
        Eval.operate span op l r m = .error (.failed .divisionByZero span m.calls) m)) ∧
    Fault.divisionByZero.message = "Division by zero" ∧
    ∀ l r, r ≠ 0 → quotient? l r = some (towardZero (l / r)) := by
  refine ⟨fun n w => by rw [wrap_eq_iff, inRange_iff], fun _ => wrap_eq_self, wrap_wrap,
    fun a b => ⟨wrap_add a b, wrap_sub a b, wrap_mul a b⟩, ?_, rfl, fun _ _ => quotient?_eq⟩
  intro l r hl hr span m
  have hbits : ∀ n, InRange n → (BitVec.ofInt 64 n).toInt = n := by
    intro n hn
    rw [← wrap_eq_toInt, wrap_eq_self hn]
  refine ⟨?_, ?_, ?_, ?_, ?_⟩
  · rw [BitVec.toInt_add, hbits l hl, hbits r hr]
    rfl
  · rw [BitVec.toInt_sub, hbits l hl, hbits r hr]
    rfl
  · rw [BitVec.toInt_mul, hbits l hl, hbits r hr]
    rfl
  · intro hne
    refine ⟨_, _, ?_, ?_, division_of_inRange hl hne⟩
    · simp only [Eval.operate, Token.Kind.apply, quotient?, if_neg hne]
      rfl
    · simp only [Eval.operate, Token.Kind.apply, quotient?, if_neg hne]
      rfl
  · rintro rfl op hop
    simp only [List.mem_cons, List.not_mem_nil, or_false] at hop
    rcases hop with rfl | rfl <;> rfl

/-- The smallest word divided by minus one is itself again, without a remainder; minus seven divided
    by two is minus three with the remainder minus one; and zero divides nothing. -/
theorem divided_words :
    (InRange (-2 ^ 63) ∧ InRange (-1) ∧ ∃ q v, Division (-2 ^ 63) (-1) q v ∧ q = -2 ^ 63 ∧ v = 0) ∧
    (InRange (-7) ∧ InRange 2 ∧ ∃ q v, Division (-7) 2 q v ∧ q = -3 ∧ v = -1) ∧
    Eval.operate ⟨.origin, .origin⟩ .percent (-7) 0 .empty =
      .error (.failed .divisionByZero ⟨.origin, .origin⟩ []) .empty ∧
    wrap (2 ^ 63) = -2 ^ 63 ∧ quotient? (-2 ^ 64) 3 = some (towardZero ((-2 ^ 64 : Int) / (3 : Int))) := by
  obtain ⟨hclass, -, -, -, hwords, -, hall⟩ := machine_arithmetic
  have hdivided : ∀ l r, InRange l → InRange r → r ≠ 0 → ∃ q v,
      Division l r q v ∧ q = wrap (l.tdiv r) ∧ v = l.tmod r := by
    intro l r hl hr hne
    obtain ⟨q, v, -, -, hdivision⟩ := (hwords l r hl hr ⟨.origin, .origin⟩ .empty).2.2.2.1 hne
    refine ⟨q, v, hdivision, ?_, ?_⟩
    · rw [hdivision.quotient, tdiv_eq_towardZero]
    · rw [hdivision.remainder, Int.tmod_def, tdiv_eq_towardZero]
  refine ⟨⟨by decide, by decide, hdivided _ _ (by decide) (by decide) (by decide)⟩,
    ⟨by decide, by decide, hdivided _ _ (by decide) (by decide) (by decide)⟩, ?_,
    (hclass _ _).mpr (by decide), hall _ _ (by decide)⟩
  exact (hwords (-7) 0 (by decide) (by decide) _ _).2.2.2.2 rfl _ (by simp)

end MiniLang
