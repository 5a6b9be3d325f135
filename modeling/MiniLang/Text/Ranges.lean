/-
  Sets of characters given by ranges of code points.

  A class of characters (blanks, letters, digits) is a sorted list of closed ranges `(lo, hi)`.
  `Ranges.holds` walks the list and stops at the first range that lies above the code point, so
  that a character of a small code point is decided after one or two steps.
-/

namespace MiniLang.Text

/-- Closed ranges of code points, in increasing order and apart from each other. -/
abbrev Ranges := List (Nat × Nat)

namespace Ranges

/-- Is `n` in one of the ranges?  The ranges are sorted, so the walk stops as soon as `n` lies
    below the range at hand. -/
def holds : Ranges → Nat → Bool
  | [], _ => false
  | (lo, hi) :: rest, n => if n < lo then false else if n ≤ hi then true else holds rest n

/-- Every range is proper and lies above `low`, and they come in increasing order. -/
def SortedAbove : Nat → Ranges → Prop
  | _, [] => True
  | low, (lo, hi) :: rest => low ≤ lo ∧ lo ≤ hi ∧ SortedAbove (hi + 1) rest

instance decidableSortedAbove : (low : Nat) → (rs : Ranges) → Decidable (SortedAbove low rs)
  | _, [] => isTrue trivial
  | low, (lo, hi) :: rest =>
    have := decidableSortedAbove (hi + 1) rest
    inferInstanceAs (Decidable (low ≤ lo ∧ lo ≤ hi ∧ SortedAbove (hi + 1) rest))

/-- Below a sorted list nothing is held. -/
theorem holds_eq_false_of_lt : ∀ {rs : Ranges} {low n : Nat},
    SortedAbove low rs → n < low → holds rs n = false := by
  intro rs low n hs hn
  cases rs with
  | nil => rfl
  | cons r rest =>
    have hlt : n < r.1 := Nat.lt_of_lt_of_le hn hs.1
    simp [holds, hlt]

/-- On a sorted list the early stop loses nothing: `holds` is membership in some range. -/
theorem holds_iff_exists : ∀ {rs : Ranges} {low n : Nat}, SortedAbove low rs →
    (holds rs n = true ↔ ∃ r ∈ rs, r.1 ≤ n ∧ n ≤ r.2) := by
  intro rs
  induction rs with
  | nil => intro low n _; simp [holds]
  | cons r rest ih =>
    intro low n hs
    obtain ⟨lo, hi⟩ := r
    obtain ⟨_, hlh, hrest⟩ := hs
    by_cases hlt : n < lo
    · have hno : holds rest n = false := holds_eq_false_of_lt hrest (by omega)
      have hsub : ¬ ∃ r ∈ rest, r.1 ≤ n ∧ n ≤ r.2 := by
        rw [← ih hrest]; simp [hno]
      simp only [holds, hlt, if_true, List.mem_cons, Bool.false_eq_true, false_iff]
      rintro ⟨r, rfl | hr, hle⟩
      · exact absurd hle.1 (by simpa using hlt)
      · exact hsub ⟨r, hr, hle⟩
    · by_cases hle : n ≤ hi
      · simp only [holds, hlt, hle, if_true, if_false, true_iff]
        exact ⟨(lo, hi), List.mem_cons_self, Nat.le_of_not_lt hlt, hle⟩
      · simp only [holds, hlt, hle, if_false, ih hrest, List.mem_cons]
        constructor
        · rintro ⟨r, hr, h⟩; exact ⟨r, Or.inr hr, h⟩
        · rintro ⟨r, rfl | hr, h⟩
          · exact absurd h.2 hle
          · exact ⟨r, hr, h⟩

end Ranges

end MiniLang.Text
