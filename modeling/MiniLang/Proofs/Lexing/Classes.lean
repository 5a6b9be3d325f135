/-
  The classes of characters are apart.

  Which piece of text a character begins is decided by asking one class after the other: blanks,
  digits, beginnings of names, signs.  No character is in two of them, so the order of the questions
  does not matter, and a grammar of pieces needs no priorities.

  The classes are sorted tables of ranges.  `Ranges.apart` walks two tables side by side, past
  whichever range comes first, and the facts about single characters are read off it.
-/
import MiniLang.Text.Blank
import MiniLang.Text.Numeral
import MiniLang.Token

namespace MiniLang.Text

namespace Ranges

/-- Is every range of the one list apart from every range of the other?  Each step is past one
    range, so the number of ranges is enough for the walk. -/
def apart : Nat → Ranges → Ranges → Bool
  | 0, _, _ => false
  | _ + 1, [], _ => true
  | _ + 1, _, [] => true
  | n + 1, r :: rs, s :: ss =>
    if r.2 < s.1 then apart n rs (s :: ss)
    else if s.2 < r.1 then apart n (r :: rs) ss
    else false

/-- A code point in one of the ranges. -/
def In (rs : Ranges) (n : Nat) : Prop := ∃ r ∈ rs, r.1 ≤ n ∧ n ≤ r.2

theorem in_of_holds : ∀ {rs : Ranges} {low n : Nat}, SortedAbove low rs → rs.holds n = true →
    In rs n := by
  intro rs low n hs h
  exact (holds_iff_exists hs).mp h

theorem le_of_in : ∀ {rs : Ranges} {low n : Nat}, SortedAbove low rs → In rs n → low ≤ n := by
  intro rs
  induction rs with
  | nil =>
    rintro low n _ ⟨r, hr, _⟩
    cases hr
  | cons r rest ih =>
    rintro low n ⟨hlow, hlh, hrest⟩ ⟨q, hq, hqn⟩
    rcases List.mem_cons.mp hq with rfl | hq
    · exact Nat.le_trans hlow hqn.1
    · have hle := ih hrest ⟨q, hq, hqn⟩
      omega

/-- By induction on the walk: what is passed lies below everything that is left of the other
    list. -/
theorem not_in_both : ∀ {steps : Nat} {rs ss : Ranges} {low low' n : Nat},
    SortedAbove low rs → SortedAbove low' ss → apart steps rs ss = true →
    In rs n → In ss n → False := by
  intro steps
  induction steps with
  | zero =>
    intro rs ss low low' n _ _ h
    cases h
  | succ steps ih =>
    intro rs ss low low' n hrs hss h hr hs
    cases rs with
    | nil =>
      obtain ⟨r, hr, _⟩ := hr
      cases hr
    | cons r rs =>
      cases ss with
      | nil =>
        obtain ⟨s, hs, _⟩ := hs
        cases hs
      | cons s ss =>
        rw [apart] at h
        split at h
        · -- all of the second list lies above `r`, so `n` is not in `r`
          next hlt =>
          obtain ⟨q, hq, hqn⟩ := hr
          rcases List.mem_cons.mp hq with rfl | hq
          · have hsorted : SortedAbove s.1 (s :: ss) := ⟨Nat.le_refl _, hss.2⟩
            have hle : s.1 ≤ n := le_of_in hsorted hs
            omega
          · exact ih hrs.2.2 hss h ⟨q, hq, hqn⟩ hs
        split at h
        · -- the same for `s` and the first list
          next hlt =>
          obtain ⟨q, hq, hqn⟩ := hs
          rcases List.mem_cons.mp hq with rfl | hq
          · have hsorted : SortedAbove r.1 (r :: rs) := ⟨Nat.le_refl _, hrs.2⟩
            have hle : r.1 ≤ n := le_of_in hsorted hr
            omega
          · exact ih hrs hss.2.2 h hr ⟨q, hq, hqn⟩
        · cases h

end Ranges

/-- The ranges of the decimal digits, ten code points each. -/
def digitRanges : Ranges := digitZeros.map fun start => (start, start + 9)

theorem in_of_digitIn : ∀ {zeros : List Nat} {n : Nat}, (digitIn zeros n).isSome = true →
    Ranges.In (zeros.map fun start => (start, start + 9)) n := by
  intro zeros n h
  induction zeros with
  | nil => cases h
  | cons start rest ih =>
    unfold digitIn at h
    split at h
    · cases h
    split at h
    · exact ⟨(start, start + 9), List.mem_cons_self, by omega, by omega⟩
    · obtain ⟨r, hr, hle⟩ := ih h
      exact ⟨r, List.mem_cons_of_mem _ hr, hle⟩

theorem digitRanges_sorted : Ranges.SortedAbove 0 digitRanges := by decide +kernel

theorem letterRanges_sorted : Ranges.SortedAbove 0 letterRanges := by decide +kernel

/-! ## Single characters -/

theorem not_digit_of_blank {c : Char} : isBlank c = true → isDigit c = false := by
  intro hb
  refine Bool.eq_false_iff.mpr fun hd => ?_
  have hapart : Ranges.apart 1000 blankRanges digitRanges = true := by decide +kernel
  exact Ranges.not_in_both blankRanges_sorted digitRanges_sorted hapart
    (Ranges.in_of_holds blankRanges_sorted hb) (in_of_digitIn hd)

theorem not_letter_of_blank {c : Char} : isBlank c = true → isLetter c = false := by
  intro hb
  refine Bool.eq_false_iff.mpr fun hl => ?_
  have hapart : Ranges.apart 1000 blankRanges letterRanges = true := by decide +kernel
  exact Ranges.not_in_both blankRanges_sorted letterRanges_sorted hapart
    (Ranges.in_of_holds blankRanges_sorted hb) (Ranges.in_of_holds letterRanges_sorted hl)

theorem not_letter_of_digit {c : Char} : isDigit c = true → isLetter c = false := by
  intro hd
  refine Bool.eq_false_iff.mpr fun hl => ?_
  have hapart : Ranges.apart 1000 digitRanges letterRanges = true := by decide +kernel
  exact Ranges.not_in_both digitRanges_sorted letterRanges_sorted hapart
    (in_of_digitIn hd) (Ranges.in_of_holds letterRanges_sorted hl)

/-- The underscore begins a name without being a letter. -/
theorem isNameStart_cases {c : Char} : isNameStart c = true → c = '_' ∨ isLetter c = true := by
  intro h
  rw [isNameStart, Bool.or_eq_true, beq_iff_eq] at h
  exact h

theorem not_blank_of_digit {c : Char} : isDigit c = true → isBlank c = false := by
  intro hd
  refine Bool.eq_false_iff.mpr fun hb => ?_
  rw [not_digit_of_blank hb] at hd
  cases hd

theorem not_blank_of_nameStart {c : Char} : isNameStart c = true → isBlank c = false := by
  intro h
  rcases isNameStart_cases h with rfl | hl
  · decide
  · refine Bool.eq_false_iff.mpr fun hb => ?_
    rw [not_letter_of_blank hb] at hl
    cases hl

theorem not_digit_of_nameStart {c : Char} : isNameStart c = true → isDigit c = false := by
  intro h
  rcases isNameStart_cases h with rfl | hl
  · decide
  · refine Bool.eq_false_iff.mpr fun hd => ?_
    rw [not_letter_of_digit hd] at hl
    cases hl

/-- A character outside all the classes that come before the signs. -/
def isSignLike (c : Char) : Bool := !isBlank c && !isDigit c && !isNameStart c

theorem isSignLike_iff {c : Char} : isSignLike c = true ↔
    isBlank c = false ∧ isDigit c = false ∧ isNameStart c = false := by
  simp [isSignLike, and_assoc]

end MiniLang.Text

namespace MiniLang.Token

open MiniLang.Text

/-- What is found in a table is in it. -/
theorem mem_of_lookup {α β : Type} [BEq α] [LawfulBEq α] {table : List (α × β)} {a : α} {b : β} :
    table.lookup a = some b → (a, b) ∈ table := by
  intro h
  obtain ⟨before, behind, rfl, _⟩ := List.lookup_eq_some_iff.mp h
  exact List.mem_append_right before List.mem_cons_self

/-- No sign of one character is of another class. -/
theorem isSignLike_of_sign {c : Char} {kind : Kind} : Kind.ofSign? c = some kind →
    isSignLike c = true := by
  intro h
  have hall : ∀ entry ∈ signs, isSignLike entry.1 = true := by decide +kernel
  exact hall _ (mem_of_lookup h)

/-- Nor is the first character of a sign of two. -/
theorem isSignLike_of_pair {c d : Char} {kind : Kind} : Kind.ofPair? c d = some kind →
    isSignLike c = true ∧ c ≠ '/' := by
  intro h
  have hall : ∀ entry ∈ pairs, isSignLike entry.1.1 = true ∧ entry.1.1 ≠ '/' := by
    decide +kernel
  exact hall _ (mem_of_lookup h)

end MiniLang.Token
