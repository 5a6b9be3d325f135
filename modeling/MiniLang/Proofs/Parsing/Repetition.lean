/-
  Repetition: rows of phrases, with commas between them or without.

  Each of the three repeating readers is shown to consume phrases of the relation that its item
  consumes.  Its bound on the number of rounds is never what ends it: a round takes a token, and a
  stream without tokens shows end markers, which end every repetition.
-/
import MiniLang.Proofs.Grammar
import MiniLang.Proofs.Parsing.Reading

namespace MiniLang.Parse

open Grammar

variable {α : Type} {d c : Nat}

/-! ## Rows -/

/-- A row of phrases of `G` with commas between them, and what each of them stands for. -/
def Row (G : List Token → α → Prop) (ts : List Token) (as : List α) : Prop :=
  ∃ parts : List (List Token × α), Separated (parts.map (·.1)) ts ∧ (∀ a ∈ parts, G a.1 a.2) ∧
    as = parts.map (·.2)

/-- What follows the first phrase of a row. -/
def RowAfter (G : List Token → α → Prop) (ts : List Token) (as : List α) : Prop :=
  ∃ parts : List (List Token × α), AfterCommas (parts.map (·.1)) ts ∧ (∀ a ∈ parts, G a.1 a.2) ∧
    as = parts.map (·.2)

/-- Phrases of `G` one after the other. -/
def Several (G : List Token → α → Prop) (ts : List Token) (as : List α) : Prop :=
  ∃ parts : List (List Token × α), ts = (parts.map (·.1)).flatten ∧ (∀ a ∈ parts, G a.1 a.2) ∧
    as = parts.map (·.2)

theorem rowAfter_nil {G : List Token → α → Prop} : RowAfter G [] [] := ⟨[], .nil, by simp, rfl⟩

theorem RowAfter.cons {G : List Token → α → Prop} {comma : Token} {ts us : List Token} {a : α}
    {as : List α} (hcomma : comma.kind = .comma) (ha : G ts a) (h : RowAfter G us as) :
    RowAfter G (comma :: ts ++ us) (a :: as) := by
  obtain ⟨parts, hparts, hall, rfl⟩ := h
  exact ⟨(ts, a) :: parts, .cons hcomma hparts, List.forall_mem_cons.mpr ⟨ha, hall⟩, rfl⟩

theorem row_nil {G : List Token → α → Prop} : Row G [] [] := ⟨[], .nil, by simp, rfl⟩

theorem RowAfter.row {G : List Token → α → Prop} {ts us : List Token} {a : α} {as : List α}
    (ha : G ts a) (h : RowAfter G us as) : Row G (ts ++ us) (a :: as) := by
  obtain ⟨parts, hparts, hall, rfl⟩ := h
  exact ⟨(ts, a) :: parts, .cons hparts, List.forall_mem_cons.mpr ⟨ha, hall⟩, rfl⟩

theorem several_nil {G : List Token → α → Prop} : Several G [] [] := ⟨[], rfl, by simp, rfl⟩

theorem Several.cons {G : List Token → α → Prop} {ts us : List Token} {a : α} {as : List α}
    (ha : G ts a) (h : Several G us as) : Several G (ts ++ us) (a :: as) := by
  obtain ⟨parts, rfl, hparts, rfl⟩ := h
  exact ⟨(ts, a) :: parts, rfl, List.forall_mem_cons.mpr ⟨ha, hparts⟩, rfl⟩

/-- A row in parentheses, with the closing one. -/
def InParentheses (G : List Token → α → Prop) (ts : List Token) (r : List α × Token) : Prop :=
  ∃ l us, ts = l :: us ++ [r.2] ∧ Parentheses l r.2 ∧ Row G us r.1

theorem manyAfterComma_reads {item : Parse α} {G : List Token → α → Prop}
    (hitem : Reads d c item G) : ∀ n, Reads d c (manyAfterComma item n) (RowAfter G) := by
  intro n
  induction n with
  | zero => intro s _; exact ⟨[], rfl, rowAfter_nil⟩
  | succ n ih =>
    intro s hs
    rw [manyAfterComma]
    refine accept_and_then (by decide) hs ?_ fun _ => ⟨[], rfl, rowAfter_nil⟩
    rintro comma s rfl hcomma
    refine hitem.and_then hs (by simp; omega) ?_
    rintro a ts s rfl ha
    refine ih.and_then hs (by simp; omega) ?_
    rintro as us s rfl has
    exact ⟨comma :: ts ++ us, by simp, has.cons hcomma ha⟩

/-- The opening parenthesis pays for eleven frames of the items. -/
theorem parenthesised_reads {item : Parse α} {G : List Token → α → Prop}
    (hitem : Reads d (c + 11) item G) : Reads d c (parenthesised item) (InParentheses G) := by
  intro s hs
  rw [parenthesised]
  refine expect_and_then (by decide) hs ?_
  rintro l s rfl hl
  rw [meets_bind, meets_check]
  split
  · refine expect_and_then (by decide) hs ?_
    rintro r s rfl hr
    exact ⟨[l, r], by simp, l, [], rfl, ⟨hl, hr⟩, row_nil⟩
  · refine hitem.and_then hs (by simp; omega) ?_
    rintro a ts s rfl ha
    rw [meets_bind, meets_get]
    refine (manyAfterComma_reads hitem _).and_then hs (by simp; omega) ?_
    rintro as us s rfl has
    refine expect_and_then (by decide) hs ?_
    rintro r s rfl hr
    exact ⟨l :: (ts ++ us) ++ [r], by simp, l, ts ++ us, rfl, ⟨hl, hr⟩, has.row ha⟩

/-- The items that stand before the end of a row, which is reached if there is an item less in the
    queue than `n`. -/
theorem manyUntil_meets {ends : Token.Kind → Bool} {item : Parse α} {G : List Token → α → Prop}
    (hends : ends .eof = true) (hitem : Reads d c item G) (hne : ∀ ts a, G ts a → ts ≠ []) :
    ∀ n s, s.Ended → (manyUntil ends item n).Meets s
      (fun as s' => (∃ ts, s = s'.prepend ts ∧ Several G ts as) ∧
        (s.size ≤ n → ends s'.front.kind = true)) (Short d (11 * s.size + c)) := by
  intro n
  induction n with
  | zero =>
    intro s hs
    refine ⟨⟨[], rfl, several_nil⟩, fun hsize => ?_⟩
    -- a drained stream goes on with end markers
    by_cases h : s.front.kind = .eof
    · rw [h, hends]
    · have := TokenStream.size_pos_of_front hs h
      omega
  | succ n ih =>
    intro s hs
    rw [manyUntil, meets_bind, meets_front]
    split
    · next h => exact ⟨⟨[], rfl, several_nil⟩, fun _ => h⟩
    · refine hitem.and_then hs id ?_
      rintro a ts s rfl ha
      have hlen : 0 < ts.length := List.length_pos_iff.mpr (hne ts a ha)
      rw [meets_bind]
      refine (ih s hs).mono ?_ fun halt h => h.trans (by simp; omega)
      rintro as s' ⟨⟨us, rfl, has⟩, hend⟩
      refine ⟨⟨ts ++ us, by simp, has.cons ha⟩, fun hsize => hend ?_⟩
      simp only [TokenStream.size_prepend] at hsize ⊢
      omega

end MiniLang.Parse
