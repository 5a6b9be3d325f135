/-
  The words that a program is printed with can be read.

  * `decimalValue_toDigits` and `wrap_toNat_emod`: a number is written with the digits of the
    member of its class that is not negative, and this one is folded back to it.
  * `readable_ofKind`, `readable_ofName` and `readable_ofValue`: signs, keywords, names and numbers
    are single pieces, and make the token they were written for.
-/
import MiniLang.Proofs.Lexing.Words
import MiniLang.Proofs.Printing.Printer

namespace MiniLang

open MiniLang.Text

/-! ## Numbers -/

namespace Text

theorem isDigit_of_ascii {c : Char} : c.isDigit = true → isDigit c = true := by
  intro h
  rw [Char.isDigit, Bool.and_eq_true, decide_eq_true_eq, decide_eq_true_eq] at h
  have hlo : 48 ≤ c.toNat := h.1
  have hhi : c.toNat ≤ 57 := h.2
  have hvalue : digitValue? c = some (c.toNat - 0x30) := by
    rw [digitValue?, digitZeros, digitIn, if_neg (by omega), if_pos (by omega)]
  rw [isDigit, hvalue]
  rfl

theorem decimalValue_append (cs : List Char) (c : Char) :
    decimalValue (cs ++ [c]) = 10 * decimalValue cs + (digitValue? c).getD 0 := by
  rw [decimalValue, List.foldl_append]
  rfl

theorem digitValue?_digitChar : ∀ n, n < 10 → digitValue? n.digitChar = some n := by decide

/-- The decimal digits of a number have it as their value. -/
theorem decimalValue_toDigits : ∀ n : Nat, decimalValue (Nat.toDigits 10 n) = n := by
  intro n
  induction n using Nat.strongRecOn with
  | ind n ih =>
    rcases Nat.lt_or_ge n 10 with hlt | hge
    · have hdigit := decimalValue_append [] n.digitChar
      rw [digitValue?_digitChar n hlt] at hdigit
      rw [Nat.toDigits_of_lt_base hlt]
      exact hdigit.trans (Nat.zero_add n)
    · have hdigit := digitValue?_digitChar (n % 10) (Nat.mod_lt n (by decide))
      rw [Nat.toDigits_of_base_le (by decide) hge, decimalValue_append, hdigit, Option.getD_some,
        ih (n / 10) (by omega)]
      omega

end Text

namespace Word

theorem toNat_emod_lt (v : Int) : (v % modulus).toNat < modulus := by
  have hpos : 0 < modulus := by decide
  have hlt : v % modulus < modulus := Int.emod_lt_of_pos v (by decide)
  omega

/-- The member of a class that is not negative is folded back to the word of the class. -/
theorem wrap_toNat_emod {v : Int} : InRange v → wrap (v % modulus).toNat = v := by
  intro h
  have hnonneg : 0 ≤ v % modulus := Int.emod_nonneg v (by decide)
  rw [Int.toNat_of_nonneg hnonneg, wrap, Int.emod_bmod]
  exact wrap_eq_self h

end Word

namespace Token

/-! ## Signs, keywords and names -/

theorem readable_of_identifier {name : String} {kind : Kind} : Kind.ofIdentifier name = kind →
    (∃ c cs, name.toList = c :: cs ∧ isNameStart c = true ∧ ∀ d ∈ cs, isNameRest d = true) →
    Readable ⟨kind, name, .nowhere, none⟩ := by
  rintro hkind ⟨c, cs, hname, hc, hcs⟩
  refine ⟨⟨.identifier, name.toList⟩, rfl, ?_, rfl, ⟨nofun, nofun⟩, ?_⟩
  · rw [Piece.kind?, String.ofList_toList, hkind]
  · intro rest hrest
    rw [hname]
    refine .identifier hc hcs ?_
    intro d hd
    rw [hrest d hd]
    decide

theorem readable_of_pair {c d : Char} {kind : Kind} : Kind.ofPair? c d = some kind →
    Readable ⟨kind, String.ofList [c, d], .nowhere, none⟩ := by
  intro h
  refine ⟨⟨.sign kind, [c, d]⟩, String.toList_ofList.symm, rfl, rfl, ⟨nofun, nofun⟩, ?_⟩
  intro rest _
  exact .pair h

theorem readable_of_sign {c : Char} {kind : Kind} : Kind.ofSign? c = some kind →
    Readable ⟨kind, String.ofList [c], .nowhere, none⟩ := by
  intro h
  refine ⟨⟨.sign kind, [c]⟩, String.toList_ofList.symm, rfl, rfl, ⟨nofun, nofun⟩, ?_⟩
  intro rest hrest
  refine .sign h ?_
  intro d hd
  rw [hrest d hd]
  have hall : ∀ entry ∈ signs, Kind.ofPair? entry.1 ' ' = none := by decide
  refine ⟨hall _ (mem_of_lookup h), ?_⟩
  rintro ⟨_, heq | heq⟩ <;> cases heq

/-- Every kind but three has a text of its own, and stands in one of the three tables. -/
theorem table_of_kind : ∀ kind : Kind, kind ∉ [Kind.eof, .int, .name] →
    (∃ s, (s, kind) ∈ keywords) ∨ (∃ c d, ((c, d), kind) ∈ pairs) ∨ ∃ c, (c, kind) ∈ signs := by
  intro kind h
  have hall : ∀ kind ∈ Kind.all, kind ∈ [Kind.eof, .int, .name] ∨ kind ∈ keywords.map (·.2) ∨
      kind ∈ pairs.map (·.2) ∨ kind ∈ signs.map (·.2) := by decide
  rcases hall kind (Kind.mem_all kind) with hnone | hkeyword | hpair | hsign
  · exact absurd hnone h
  · obtain ⟨⟨s, _⟩, hmem, rfl⟩ := List.mem_map.mp hkeyword
    exact Or.inl ⟨s, hmem⟩
  · obtain ⟨⟨⟨c, d⟩, _⟩, hmem, rfl⟩ := List.mem_map.mp hpair
    exact Or.inr (Or.inl ⟨c, d, hmem⟩)
  · obtain ⟨⟨c, _⟩, hmem, rfl⟩ := List.mem_map.mp hsign
    exact Or.inr (Or.inr ⟨c, hmem⟩)

theorem readable_ofKind : ∀ kind : Kind, kind ∉ [Kind.eof, .int, .name] →
    Readable (ofKind kind) := by
  intro kind h
  rcases table_of_kind kind h with ⟨s, hs⟩ | ⟨c, d, hcd⟩ | ⟨c, hc⟩
  · have hall : ∀ entry ∈ keywords, Kind.ofIdentifier entry.1 = entry.2 ∧
        entry.2.spelling = entry.1 ∧ entry.1.toList.head?.any isNameStart = true ∧
        entry.1.toList.tail.all isNameRest = true := by decide +kernel
    obtain ⟨hkind, hspelling, hhead, htail⟩ := hall _ hs
    rw [ofKind, hspelling]
    refine readable_of_identifier hkind ?_
    cases hchars : s.toList with
    | nil =>
      rw [hchars] at hhead
      cases hhead
    | cons c cs =>
      rw [hchars] at hhead htail
      exact ⟨c, cs, rfl, hhead, List.all_eq_true.mp htail⟩
  · have hall : ∀ entry ∈ pairs, Kind.ofPair? entry.1.1 entry.1.2 = some entry.2 ∧
        entry.2.spelling = String.ofList [entry.1.1, entry.1.2] := by decide +kernel
    obtain ⟨hkind, hspelling⟩ := hall _ hcd
    rw [ofKind, hspelling]
    exact readable_of_pair hkind
  · have hall : ∀ entry ∈ signs, Kind.ofSign? entry.1 = some entry.2 ∧
        entry.2.spelling = String.ofList [entry.1] := by decide +kernel
    obtain ⟨hkind, hspelling⟩ := hall _ hc
    rw [ofKind, hspelling]
    exact readable_of_sign hkind

theorem readable_ofName {name : String} : IsName name ∨ name = printName →
    Readable (ofName name) := by
  rintro (⟨_, hname⟩ | rfl)
  · exact readable_of_identifier rfl hname
  · have hprint : ofName printName = ofKind .kwPrint := by decide
    rw [hprint]
    exact readable_ofKind .kwPrint (by decide)

theorem readable_ofValue {v : Int} : Word.InRange v → Readable (ofValue v) := by
  intro hv
  have hdigits : (v % Word.modulus).toNat.repr.toList = Nat.toDigits 10 (v % Word.modulus).toNat :=
    Nat.toList_repr
  refine ⟨⟨.number, (v % Word.modulus).toNat.repr.toList⟩, rfl, rfl, ?_, ⟨nofun, fun _ => ?_⟩, ?_⟩
  · rw [Piece.value?, hdigits, decimalValue_toDigits, Word.wrap_toNat_emod hv]
    rfl
  · -- a word has at most twenty digits
    have hlength : (Nat.toDigits 10 (v % Word.modulus).toNat).length ≤ 20 := by
      rw [Nat.length_toDigits_le_iff (by decide) (by decide)]
      exact Nat.lt_trans (Word.toNat_emod_lt v) (by decide)
    rw [hdigits]
    exact Nat.le_trans hlength (by decide)
  · intro rest hrest
    have hall : ∀ c ∈ Nat.toDigits 10 (v % Word.modulus).toNat, isDigit c = true := fun c hc =>
      isDigit_of_ascii (Nat.isDigit_of_mem_toDigits (by decide) (by decide) hc)
    rw [hdigits]
    cases htext : Nat.toDigits 10 (v % Word.modulus).toNat with
    | nil => exact absurd htext Nat.toDigits_ne_nil
    | cons c more =>
      rw [htext] at hall
      obtain ⟨hc, hmore⟩ := List.forall_mem_cons.mp hall
      refine .number hc hmore ?_
      intro d hd
      rw [hrest d hd]
      decide

end Token

end MiniLang
