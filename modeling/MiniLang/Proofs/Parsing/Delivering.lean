/-
  What holds of every expression that is read.

  The readers of expressions call each other in many ways, and most that is to be said of what they
  return follows from few rules: one for each way in which an expression is put together.

  1. **Delivering** — `Delivers p G`: where the reader ends well, it has consumed a phrase of `G`.
     Nothing is said of the frames.
  2. **Rules** — `ExpressionRules G C`: the relation `G` of phrases and expressions, with their
     places, is closed under the ways of the parser, and `C` is what holds of a call behind its
     name.
  3. **Expressions** — whatever has the rules is delivered by every reader of expressions
     (`ExpressionRules.deliver`).
-/
import MiniLang.Proofs.Parsing.Sound

namespace MiniLang.Parse

open Grammar (Separated)

variable {d : Nat}

/-! ## Delivering -/

/-- Where the reader ends well, it has consumed a phrase of `G`; its frames do not matter here, so
    that it may have none. -/
abbrev Delivers {α : Type} (p : Parse α) (G : List Token → α → Prop) : Prop := Reads 0 1 p G

theorem Delivers.reads {α : Type} {p : Parse α} {G : List Token → α → Prop} (h : Delivers p G)
    (c : Nat) : Reads 0 (c + 1) p G :=
  fun s hs => (h s hs).mono (fun _ _ h => h) fun _ h => h.trans (by omega)

theorem tooDeep_delivers {α : Type} (G : List Token → α → Prop) : Delivers tooDeep G :=
  fun _ _ _ => Nat.zero_lt_succ _

/-! ## Rules -/

/-- The ways in which the parser puts expressions together. -/
structure ExpressionRules (G : List Token → Expr → Prop) (C : Token → List Token → Expr → Prop) :
    Prop where
  number : ∀ t : Token, t.kind = .int → G [t] (.lit t.span (t.value.getD 0))
  name : ∀ t : Token, t.kind = .name → G [t] (.var t.span t.lexeme)
  call : ∀ (t : Token) ts e, t.kind = .name ∨ t.kind = .kwPrint → C t ts e → G (t :: ts) e
  arguments : ∀ (t l r : Token) us (parts : List (List Token × Expr)),
    Separated (parts.map (·.1)) us → (∀ a ∈ parts, G a.1 a.2) →
    C t (l :: us ++ [r]) (.call (t.span.through r.span) t.lexeme (parts.map (·.2)))
  parens : ∀ (l r : Token) ts e, l.kind = .lparen → G ts e → G (l :: ts ++ [r]) e
  minus : ∀ (t : Token) ts e, t.kind = .minus → G ts e →
    G (t :: ts) (.binary (t.span.through e.span) (.lit t.span 0) .minus e)
  binary : ∀ ts left (op : Token) us right, G ts left → G us right →
    G (ts ++ op :: us) (.binary (left.span.through right.span) left op.kind right)

/-! ## Expressions -/

/-- The readers of expressions deliver phrases of `G`, and calls behind their names those of `C`. -/
structure ExpressionsDeliver (G : List Token → Expr → Prop) (C : Token → List Token → Expr → Prop)
    (d : Nat) : Prop where
  expression : Delivers (expression d) G
  ofLevel : ∀ o, Delivers (ofLevel d o) G
  primary : Delivers (primary d) G
  callOf : ∀ t, Delivers (callOf d t) (C t)

variable {G : List Token → Expr → Prop} {C : Token → List Token → Expr → Prop}

theorem chain_delivers (hG : ExpressionRules G C) {l : Level} {operand : Parse Expr}
    (hoperand : Delivers operand G) :
    ∀ n left, Delivers (chain l.holds operand n left) fun ts e =>
      ∀ us, G us left → G (us ++ ts) e := by
  intro n
  induction n with
  | zero =>
    intro left s _
    exact ⟨[], rfl, fun us hus => by rwa [List.append_nil]⟩
  | succ n ih =>
    intro left s hs
    rw [chain, meets_bind, meets_front]
    split
    · next hop =>
      refine pop_and_then hs (ne_eof_of_holds hop) ?_
      rintro op s rfl
      refine hoperand.and_then hs (by omega) ?_
      rintro right ts s rfl hright
      refine (ih _ s hs).mono ?_ fun halt h => h.trans (by omega)
      rintro e s' ⟨us, rfl, he⟩
      refine ⟨op :: ts ++ us, by simp, fun vs hvs => ?_⟩
      have hjoined := he (vs ++ op :: ts) (hG.binary vs left op ts right hvs hright)
      rwa [List.append_assoc] at hjoined
    · exact ⟨[], rfl, fun us hus => by rwa [List.append_nil]⟩

theorem level_delivers (hG : ExpressionRules G C) (l : Level)
    (h : Delivers (ofLevel d l.tighter?) G) : Delivers (level (d + 2) l) G := by
  intro s hs
  rw [level_succ]
  refine h.and_then hs (by omega) ?_
  rintro first ts s rfl hfirst
  rw [meets_bind, meets_get]
  refine (chain_delivers hG h _ first s hs).mono ?_ fun halt h => h.trans (by omega)
  rintro e s' ⟨us, rfl, he⟩
  exact ⟨ts ++ us, by simp, he ts hfirst⟩

theorem unary_delivers (hG : ExpressionRules G C) (h : ExpressionsDeliver G C d) :
    Delivers (unary (d + 1)) G := by
  intro s hs
  rw [unary, meets_bind, meets_front]
  refine accept_and_then (by decide) hs ?_ fun _ => h.primary s hs
  rintro sign s rfl hsign
  refine (h.ofLevel none).and_then hs (by omega) ?_
  rintro operand ts s rfl hoperand
  exact ⟨sign :: ts, by simp, hG.minus sign ts operand hsign hoperand⟩

theorem callOf_delivers (hG : ExpressionRules G C) (h : ExpressionsDeliver G C d) (t : Token) :
    Delivers (callOf (d + 1) t) (C t) := by
  intro s hs
  rw [callOf]
  refine (parenthesised_reads (c := 1) (h.expression.reads 11)).and_then hs (by omega) ?_
  rintro ⟨args, close⟩ ts s rfl ⟨l, us, rfl, -, parts, hsep, hparts, rfl⟩
  exact ⟨_, rfl, hG.arguments t l close us parts hsep hparts⟩

theorem primary_delivers (hG : ExpressionRules G C) (h : ExpressionsDeliver G C d) :
    Delivers (primary (d + 1)) G := by
  have hcall : ∀ {t : Token} {s : TokenStream}, t.kind = .name ∨ t.kind = .kwPrint → s.Ended →
      (callOf d t).Meets s (fun e s' => ∃ ts, s.prepend [t] = s'.prepend ts ∧ G ts e)
        (Short 0 (11 * (s.prepend [t]).size + 1)) := by
    intro t s ht hs
    refine (h.callOf t s hs).mono ?_ fun halt h => h.trans (by omega)
    rintro e s' ⟨ts, rfl, he⟩
    exact ⟨t :: ts, by simp, hG.call t ts e ht he⟩
  intro s hs
  rw [primary, meets_bind, meets_front]
  split
  · -- a number
    next hkind =>
    refine pop_and_then hs (by rw [hkind]; decide) ?_
    rintro t s rfl
    exact ⟨[t], rfl, hG.number t hkind⟩
  · -- a name, called or not
    next hkind =>
    refine pop_and_then hs (by rw [hkind]; decide) ?_
    rintro t s rfl
    rw [meets_bind, meets_check]
    split
    · exact hcall (.inl hkind) hs
    · exact ⟨[t], rfl, hG.name t hkind⟩
  · -- print, which must be called
    next hkind =>
    refine pop_and_then hs (by rw [hkind]; decide) ?_
    rintro t s rfl
    rw [meets_bind, meets_check]
    split
    · exact hcall (.inr hkind) hs
    · exact short_wrong
  · -- an expression in parentheses
    next hkind =>
    refine pop_and_then hs (by rw [hkind]; decide) ?_
    rintro l s rfl
    refine h.expression.and_then hs (by omega) ?_
    rintro e ts s rfl he
    refine expect_and_then (by decide) hs ?_
    rintro r s rfl -
    exact ⟨l :: ts ++ [r], by simp, hG.parens l r ts e hkind he⟩
  · exact short_wrong

/-- Whatever has the rules is delivered by every reader of expressions. -/
theorem ExpressionRules.deliver (hG : ExpressionRules G C) : ∀ d, ExpressionsDeliver G C d := by
  intro d
  induction d using Nat.strongRecOn with
  | ind d ih =>
    -- a level hands on two frames less, so the induction looks two steps back
    cases d with
    | zero =>
      refine ⟨tooDeep_delivers _, fun o => ?_, tooDeep_delivers _, fun _ => tooDeep_delivers _⟩
      rcases o with _ | l
      · exact tooDeep_delivers _
      · cases l <;> exact tooDeep_delivers _
    | succ d =>
      have h := ih d (by omega)
      refine ⟨h.ofLevel (some .equality), fun o => ?_, primary_delivers hG h,
        callOf_delivers hG h⟩
      rcases o with _ | l
      · exact unary_delivers hG h
      · cases d with
        | zero => cases l <;> exact tooDeep_delivers _
        | succ d => exact level_delivers hG l ((ih d (by omega)).ofLevel _)

end MiniLang.Parse
