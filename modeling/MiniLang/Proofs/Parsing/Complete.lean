/-
  Every phrase of the grammar is read.

  Read within whatever number of frames, a phrase in front of a rest that cannot continue it is
  taken off, for the tree it stands for, unless the frames run out; it is never a wrong program.

  An expression is continued by an opening parenthesis (a name would become a call) and by the
  operators of its level and of the tighter ones; a statement by an `else`, if it ends in an `if`
  without one.  The operands of a level are grouped to the left, while the reader finds the leftmost
  first: so what is shown by induction for a row of operands is that reading the row and going on
  with the chain is the same as going on with the chain from the row's tree (`Taken`).
-/
import MiniLang.Proofs.Parsing.Sound

namespace MiniLang.Parse

open Grammar

variable {α β : Type}

/-! ## Taking a phrase off -/

/-- The reader stops for want of frames only. -/
def OnlyDeep (halt : ParseHalt) : Prop := halt = .tooDeep

/-- The reader takes the phrase `ts` off in front of `s`, for a value with `Q`. -/
def Takes (p : Parse α) (ts : List Token) (s : TokenStream) (Q : α → Prop) : Prop :=
  p.Meets (s.prepend ts) (fun a s' => Q a ∧ s' = s) OnlyDeep

/-- Taking a phrase off, and then going on from the rest. -/
theorem Takes.and_then {p : Parse α} {f : α → Parse β} {ts : List Token} {s : TokenStream}
    {Q : α → Prop} {good : β → TokenStream → Prop} (h : p.Takes ts s Q)
    (hnext : ∀ a, Q a → (f a).Meets s good OnlyDeep) :
    (p >>= f).Meets (s.prepend ts) good OnlyDeep := by
  rw [meets_bind]
  refine h.mono ?_ fun _ h => h
  rintro a s' ⟨ha, rfl⟩
  exact hnext a ha

theorem expect_takes {k : Token.Kind} {t : Token} (s : TokenStream) (ht : t.kind = k) :
    (expect k).Takes [t] s (· = t) := by
  have hfront : (s.prepend [t]).front.kind = k := ht
  rw [Takes, meets_expect, if_pos hfront]
  exact ⟨rfl, rfl⟩

/-- Taking off a token that is asked for, and then going on. -/
theorem expect_cons_and_then {k : Token.Kind} {f : Token → Parse β} {t : Token} {ts : List Token}
    {s : TokenStream} {good : β → TokenStream → Prop} (ht : t.kind = k)
    (hnext : (f t).Meets (s.prepend ts) good OnlyDeep) :
    (expect k >>= f).Meets (s.prepend (t :: ts)) good OnlyDeep := by
  rw [meets_bind, meets_expect, TokenStream.front_prepend_cons, if_pos ht]
  exact hnext

/-- Taking off a token that may be there, and is, and then going on. -/
theorem accept_cons_and_then {k : Token.Kind} {f : Bool → Parse β} {t : Token} {ts : List Token}
    {s : TokenStream} {good : β → TokenStream → Prop} (ht : t.kind = k)
    (hnext : (f true).Meets (s.prepend ts) good OnlyDeep) :
    (accept k >>= f).Meets (s.prepend (t :: ts)) good OnlyDeep := by
  rw [meets_bind, meets_accept, TokenStream.front_prepend_cons, if_pos ht]
  exact hnext

/-- Leaving a token that is not the one that may be there, and then going on. -/
theorem accept_other_and_then {k : Token.Kind} {f : Bool → Parse β} {s : TokenStream}
    {good : β → TokenStream → Prop} (hs : s.front.kind ≠ k)
    (hnext : (f false).Meets s good OnlyDeep) : (accept k >>= f).Meets s good OnlyDeep := by
  rw [meets_bind, meets_accept, if_neg hs]
  exact hnext

/-! ## Rows -/

/-- The reader of an item takes a part of a row off, before what may stand behind it there. -/
def TakesItem (item : Parse α) (view : α → β) (part : List Token × β) : Prop :=
  ∀ s : TokenStream, s.front.kind = .comma ∨ s.front.kind = .rparen →
    item.Takes part.1 s (view · = part.2)

/-- Behind a part of a row stands a comma, or what stands behind the row. -/
theorem front_after_part {ps : List (List Token)} {ts : List Token} {s : TokenStream}
    (h : AfterCommas ps ts) (hs : s.front.kind = .rparen) :
    (s.prepend ts).front.kind = .comma ∨ (s.prepend ts).front.kind = .rparen := by
  cases h with
  | nil => exact .inr hs
  | cons hcomma _ => exact .inl hcomma

theorem manyAfterComma_takes {item : Parse α} {view : α → β} {s : TokenStream}
    (hs : s.front.kind = .rparen) : ∀ (parts : List (List Token × β)) (n : Nat) (ts : List Token),
      AfterCommas (parts.map (·.1)) ts → ts.length ≤ n → (∀ a ∈ parts, TakesItem item view a) →
      (manyAfterComma item n).Takes ts s (·.map view = parts.map (·.2)) := by
  intro parts
  induction parts with
  | nil =>
    intro n ts hts _ _
    cases hts
    cases n with
    | zero => exact ⟨rfl, rfl⟩
    | succ n =>
      rw [Takes, manyAfterComma]
      exact accept_other_and_then (by rw [TokenStream.prepend_nil, hs]; decide) ⟨rfl, rfl⟩
  | cons part parts ih =>
    intro n ts hts hn hitems
    rw [List.map_cons] at hts
    obtain _ | @⟨comma, _, _, us, hcomma, hrest⟩ := hts
    obtain ⟨hpart, hparts⟩ := List.forall_mem_cons.mp hitems
    cases n with
    | zero => exact absurd hn (by simp)
    | succ n =>
      simp only [List.cons_append, List.length_cons, List.length_append] at hn
      rw [Takes, manyAfterComma, List.cons_append]
      refine accept_cons_and_then hcomma ?_
      rw [if_pos rfl, ← TokenStream.prepend_prepend]
      refine (hpart _ (front_after_part hrest hs)).and_then fun a ha => ?_
      refine (ih n us hrest (by omega) hparts).and_then fun as has => ?_
      refine ⟨?_, rfl⟩
      rw [List.map_cons, List.map_cons, ha, has]

theorem parenthesised_takes {item : Parse α} {view : α → β} {s : TokenStream} {l r : Token}
    {ts : List Token} {parts : List (List Token × β)} (hp : Parentheses l r)
    (hsep : Separated (parts.map (·.1)) ts)
    (hfirst : ∀ a ∈ parts, ∃ t us, a.1 = t :: us ∧ t.kind ≠ .rparen)
    (hitems : ∀ a ∈ parts, TakesItem item view a) :
    (parenthesised item).Takes (l :: ts ++ [r]) s
      fun as => as.1.map view = parts.map (·.2) ∧ as.2 = r := by
  rw [Takes, parenthesised, List.cons_append]
  refine expect_cons_and_then hp.1 ?_
  rw [meets_bind, meets_check]
  cases parts with
  | nil =>
    cases hsep
    rw [List.nil_append, TokenStream.front_prepend_cons, if_pos (beq_iff_eq.mpr hp.2)]
    refine (expect_takes s hp.2).and_then ?_
    rintro close rfl
    exact ⟨⟨rfl, rfl⟩, rfl⟩
  | cons part parts =>
    rw [List.map_cons] at hsep
    obtain _ | @⟨_, _, us, hrest⟩ := hsep
    obtain ⟨hpart, hparts⟩ := List.forall_mem_cons.mp hitems
    obtain ⟨t, vs, hvs, ht⟩ := hfirst part (List.mem_cons_self ..)
    rw [if_neg (by rw [hvs]; simpa using ht), List.append_assoc, ← TokenStream.prepend_prepend,
      ← TokenStream.prepend_prepend]
    have hclose : (s.prepend [r]).front.kind = .rparen := hp.2
    refine (hpart _ (front_after_part hrest hclose)).and_then fun a ha => ?_
    rw [meets_bind, meets_get]
    rw [TokenStream.size_prepend]
    refine Takes.and_then
      (manyAfterComma_takes hclose parts _ us hrest (Nat.le_add_right ..) hparts) fun as has => ?_
    refine (expect_takes s hp.2).and_then ?_
    rintro close rfl
    refine ⟨⟨?_, rfl⟩, rfl⟩
    rw [List.map_cons, List.map_cons, ha, has]

/-- Items up to an end; behind each stands the next one, or the end. -/
theorem manyUntil_takes {ends : Token.Kind → Bool} {item : Parse α} (view : α → β)
    (Follow : Token.Kind → Prop) {s : TokenStream} (hends : ends s.front.kind = true)
    (hfollow : Follow s.front.kind) : ∀ (parts : List (List Token × β)) (n : Nat),
      (∀ a ∈ parts, ∃ t us, a.1 = t :: us ∧ ends t.kind = false ∧ Follow t.kind) →
      (∀ a ∈ parts, ∀ s' : TokenStream, Follow s'.front.kind → item.Takes a.1 s' (view · = a.2)) →
      (parts.map (·.1)).flatten.length ≤ n →
      (manyUntil ends item n).Takes (parts.map (·.1)).flatten s
        (·.map view = parts.map (·.2)) := by
  intro parts
  induction parts with
  | nil =>
    intro n _ _ _
    cases n with
    | zero => exact ⟨rfl, rfl⟩
    | succ n =>
      rw [Takes, manyUntil, meets_bind, meets_front, List.map_nil, List.flatten_nil,
        TokenStream.prepend_nil, if_pos hends]
      exact ⟨rfl, rfl⟩
  | cons part parts ih =>
    intro n hfirst hitems hn
    obtain ⟨⟨t, us, hpart, ht, -⟩, hfirsts⟩ := List.forall_mem_cons.mp hfirst
    obtain ⟨hitem, hitems⟩ := List.forall_mem_cons.mp hitems
    rw [List.map_cons, List.flatten_cons, List.length_append] at hn
    have hlen : part.1.length = us.length + 1 := by rw [hpart, List.length_cons]
    cases n with
    | zero => exact absurd hn (by omega)
    | succ n =>
      -- the item stops where the next one begins, or where all of them end
      have hfront : ((s.prepend (parts.map (·.1)).flatten).prepend part.1).front.kind = t.kind := by
        rw [hpart]; rfl
      have hnext : Follow (s.prepend (parts.map (·.1)).flatten).front.kind := by
        rcases parts with _ | ⟨next, parts⟩
        · exact hfollow
        · obtain ⟨u, vs, hnext, -, hu⟩ := hfirsts next (List.mem_cons_self ..)
          rw [List.map_cons, List.flatten_cons, hnext]
          exact hu
      rw [Takes, manyUntil, List.map_cons, List.flatten_cons, ← TokenStream.prepend_prepend,
        meets_bind, meets_front, hfront, if_neg (by rw [ht]; decide)]
      refine (hitem _ hnext).and_then fun a ha => ?_
      refine (ih n hfirsts hitems (by omega)).and_then fun as has => ?_
      refine ⟨?_, rfl⟩
      rw [List.map_cons, List.map_cons, ha, has]

/-! ## Expressions -/

/-- The level and the tighter ones. -/
def Level.orTighter : Level → List Level
  | .equality => [.equality, .relational, .additive, .multiplicative]
  | .relational => [.relational, .additive, .multiplicative]
  | .additive => [.additive, .multiplicative]
  | .multiplicative => [.multiplicative]

/-- Could a token of this kind, behind an expression of a level, still belong to it? -/
def continues (o : Option Level) (k : Token.Kind) : Bool :=
  k == .lparen || (o.elim [] Level.orTighter).any (·.holds k)

theorem continues_tighter {l : Level} {k : Token.Kind} (h : continues (some l) k = false) :
    l.holds k = false ∧ continues l.tighter? k = false := by
  revert h
  cases l <;> cases k <;> decide

/-- The operators of a level do not continue its operands. -/
theorem continues_of_holds {l : Level} {k : Token.Kind} (h : l.holds k = true) :
    continues l.tighter? k = false := by
  revert h
  cases l <;> cases k <;> decide

/-- What stands behind an expression in the other phrases. -/
def closers : List Token.Kind := [.semi, .comma, .rparen]

theorem continues_of_mem_closers {k : Token.Kind} (h : k ∈ closers) (o : Option Level) :
    continues o k = false := by
  rcases o with _ | l
  · revert h; cases k <;> decide
  · revert h; cases l <;> cases k <;> decide

/-- What is to be shown of a phrase and the expression it stands for.  For a row of operands the
    chain goes on behind it. -/
def Taken : Option Level → List Token → Expr → Prop
  | none, ts, e => ∀ (d : Nat) (s : TokenStream), continues none s.front.kind = false →
      (unary d).Takes ts s (·.bare = e)
  | some l, ts, e => ∀ (d : Nat) (s : TokenStream) (good : Expr → TokenStream → Prop),
      continues l.tighter? s.front.kind = false →
      (∀ a n, a.bare = e → s.size ≤ n →
        (chain l.holds (ofLevel d l.tighter?) n a).Meets s good OnlyDeep) →
      (level (d + 2) l).Meets (s.prepend ts) good OnlyDeep

theorem chain_stops {l : Level} {operand : Parse Expr} {s : TokenStream}
    (hs : l.holds s.front.kind = false) (n : Nat) (a : Expr) {good : Expr → TokenStream → Prop}
    (h : good a s) : (chain l.holds operand n a).Meets s good OnlyDeep := by
  cases n with
  | zero => exact h
  | succ n =>
    rw [chain, meets_bind, meets_front, if_neg (by rw [hs]; decide)]
    exact h

/-- Where nothing continues it, the expression is taken off. -/
theorem Taken.takes {o : Option Level} {ts : List Token} {e : Expr} (h : Taken o ts e) (d : Nat)
    {s : TokenStream} (hs : continues o s.front.kind = false) :
    (ofLevel d o).Takes ts s (·.bare = e) := by
  rcases o with _ | l
  · exact h d s hs
  · obtain ⟨hop, htighter⟩ := continues_tighter hs
    rcases d with _ | _ | d
    · cases l <;> exact rfl
    · cases l <;> exact rfl
    · exact h d s _ htighter fun a n ha _ => chain_stops hop n a ⟨ha, rfl⟩

/-- An expression in its own right is taken off before a closer. -/
theorem Taken.expression_takes {ts : List Token} {e : Expr} (h : Taken (some .equality) ts e)
    (d : Nat) {s : TokenStream} (hs : s.front.kind ∈ closers) :
    (expression d).Takes ts s (·.bare = e) := by
  cases d with
  | zero => exact rfl
  | succ d => exact h.takes d (continues_of_mem_closers hs _)

/-- An expression and the closer behind it are taken off. -/
theorem Taken.closed_and_then {k : Token.Kind} {ts : List Token} {e : Expr} {close : Token}
    {f : Expr → Token → Parse β} {s : TokenStream} {good : β → TokenStream → Prop}
    (h : Taken (some .equality) ts e) (hk : k ∈ closers) (hclose : close.kind = k) (d : Nat)
    (hnext : ∀ a, a.bare = e → (f a close).Meets s good OnlyDeep) :
    (do let a ← expression d
        let t ← expect k
        f a t).Meets (s.prepend (ts ++ [close])) good OnlyDeep := by
  have hfront : (s.prepend [close]).front.kind ∈ closers := by
    show close.kind ∈ closers
    rw [hclose]
    exact hk
  rw [← TokenStream.prepend_prepend]
  refine (h.expression_takes d hfront).and_then fun a ha => ?_
  refine (expect_takes s hclose).and_then ?_
  rintro t rfl
  exact hnext a ha

/-- Operators do not end an expression in the middle of a chain. -/
theorem chain_goes_on {l : Level} {d n : Nat} {op : Token} {us : List Token} {a b : Expr}
    {s : TokenStream} {good : Expr → TokenStream → Prop} (hop : l.holds op.kind = true)
    (hb : Taken l.tighter? us b) (hs : continues l.tighter? s.front.kind = false)
    (hn : us.length + s.size < n)
    (hnext : ∀ c m, c.bare = .binary .nowhere a.bare op.kind b → s.size ≤ m →
      (chain l.holds (ofLevel d l.tighter?) m c).Meets s good OnlyDeep) :
    (chain l.holds (ofLevel d l.tighter?) n a).Meets (s.prepend (op :: us)) good OnlyDeep := by
  cases n with
  | zero => exact absurd hn (by omega)
  | succ n =>
    rw [chain, meets_bind, meets_front, TokenStream.front_prepend_cons, if_pos hop, meets_bind,
      meets_pop, TokenStream.pop_prepend_cons]
    refine (hb.takes d hs).and_then fun right hright => ?_
    exact hnext _ n (by rw [Expr.bare_binary, hright]) (by omega)

theorem primary_taken {ts : List Token} {e : Expr} (hfirst : ∃ t us, ts = t :: us ∧ t.kind ≠ .minus)
    (h : ∀ d (s : TokenStream), continues none s.front.kind = false →
      (primary d).Takes ts s (·.bare = e)) : Taken none ts e := by
  intro d s hs
  obtain ⟨t, us, rfl, ht⟩ := hfirst
  cases d with
  | zero => exact rfl
  | succ d =>
    rw [Takes, unary, meets_bind, meets_front]
    exact accept_other_and_then ht (h d s hs)

theorem callOf_takes {d : Nat} {t l r : Token} {ts : List Token} {s : TokenStream}
    {args : List (List Token × Expr)} (hp : Parentheses l r) (hsep : Separated (args.map (·.1)) ts)
    (hargs : ∀ a ∈ args, Expression (some .equality) a.1 a.2)
    (htaken : ∀ a ∈ args, Taken (some .equality) a.1 a.2) :
    (callOf d t).Takes (l :: ts ++ [r]) s
      (·.bare = .call .nowhere t.lexeme (args.map (·.2))) := by
  cases d with
  | zero => exact rfl
  | succ d =>
    rw [Takes, callOf]
    have hfirst : ∀ a ∈ args, ∃ t us, a.1 = t :: us ∧ t.kind ≠ .rparen := by
      intro a ha
      obtain ⟨t, us, heq, ht⟩ := (hargs a ha).first
      have hstarts : ∀ k ∈ expressionStarts, k ≠ .rparen := by decide
      exact ⟨t, us, heq, hstarts _ ht⟩
    have hitems : ∀ a ∈ args, TakesItem (expression d) Expr.bare a := by
      intro a ha s hs
      refine (htaken a ha).expression_takes d ?_
      rcases hs with hs | hs <;> rw [hs] <;> decide
    refine (parenthesised_takes hp hsep hfirst hitems).and_then ?_
    rintro ⟨as, close⟩ ⟨has, rfl⟩
    exact ⟨by rw [Expr.bare_call, has], rfl⟩

theorem expression_taken {o : Option Level} {ts : List Token} {e : Expr}
    (h : Expression o ts e) : Taken o ts e := by
  induction h with
  | @number t ht =>
    refine primary_taken ⟨t, [], rfl, by rw [ht]; decide⟩ fun d s _ => ?_
    cases d with
    | zero => exact rfl
    | succ d =>
      rw [Takes, primary, meets_bind, meets_front, TokenStream.front_prepend_cons]
      simp only [ht]
      exact ⟨Expr.bare_lit _ _, rfl⟩
  | @name t ht =>
    refine primary_taken ⟨t, [], rfl, by rw [ht]; decide⟩ fun d s hs => ?_
    cases d with
    | zero => exact rfl
    | succ d =>
      rw [Takes, primary, meets_bind, meets_front, TokenStream.front_prepend_cons]
      simp only [ht]
      have hparen : (s.front.kind == .lparen) = false := by simpa [continues] using hs
      rw [meets_bind, meets_pop, TokenStream.pop_prepend_cons, TokenStream.prepend_nil, meets_bind,
        meets_check, if_neg (by rw [hparen]; decide)]
      exact ⟨Expr.bare_var _ _, rfl⟩
  | @call t l r ts args ht hp hsep hargs ih =>
    have hfirst : t.kind ≠ .minus := by rcases ht with ht | ht <;> rw [ht] <;> decide
    refine primary_taken ⟨t, _, rfl, hfirst⟩ fun d s _ => ?_
    cases d with
    | zero => exact rfl
    | succ d =>
      have hcall := callOf_takes (d := d) (t := t) (s := s) hp hsep hargs ih
      have hparen : (l.kind == .lparen) = true := beq_iff_eq.mpr hp.1
      rw [Takes, primary, meets_bind, meets_front, List.cons_append, List.cons_append,
        TokenStream.front_prepend_cons]
      -- a name and `print` are read in two branches that do the same before a parenthesis
      rcases ht with ht | ht
      all_goals
        simp only [ht]
        rw [meets_bind, meets_pop, TokenStream.pop_prepend_cons, meets_bind, meets_check,
          TokenStream.front_prepend_cons, if_pos hparen]
        exact hcall
  | @parens l r ts e hp _ ih =>
    refine primary_taken ⟨l, _, rfl, by rw [hp.1]; decide⟩ fun d s _ => ?_
    cases d with
    | zero => exact rfl
    | succ d =>
      rw [Takes, primary, meets_bind, meets_front, List.cons_append,
        TokenStream.front_prepend_cons]
      simp only [hp.1]
      rw [meets_bind, meets_pop, TokenStream.pop_prepend_cons]
      refine ih.closed_and_then (by decide) hp.2 d fun a ha => ?_
      exact ⟨ha, rfl⟩
  | @minus t ts e ht _ ih =>
    intro d s hs
    cases d with
    | zero => exact rfl
    | succ d =>
      rw [Takes, unary, meets_bind, meets_front]
      refine accept_cons_and_then ht ?_
      rw [if_pos rfl]
      refine (ih d s hs).and_then fun a ha => ?_
      exact ⟨by rw [Expr.bare_binary, Expr.bare_lit, ha], rfl⟩
  | @operand l ts e _ ih =>
    intro d s good hs hnext
    rw [level_succ]
    refine (ih.takes d hs).and_then fun a ha => ?_
    rw [meets_bind, meets_get]
    exact hnext a _ ha (Nat.le_refl _)
  | @binary l ts a op us b _ hop _ iha ihb =>
    intro d s good hs hnext
    rw [← TokenStream.prepend_prepend]
    -- reading the row on the left goes on with a chain that has this operator in front
    refine iha d _ good (continues_of_holds hop) fun a' n ha' hn => ?_
    rw [TokenStream.size_prepend, List.length_cons] at hn
    refine chain_goes_on hop ihb hs (by omega) fun c m hc hm => ?_
    exact hnext c m (by rw [hc, ha']) hm

/-! ## Statements -/

/-- A keyword and a condition in parentheses are taken off. -/
theorem head_and_then_takes {k : Token.Kind} {ts : List Token} {c : Expr} (h : Head k ts c)
    (d : Nat) {f : Expr → Parse β} {s : TokenStream} {good : β → TokenStream → Prop}
    (hnext : ∀ a, a.bare = c → (f a).Meets s good OnlyDeep) :
    (do let _ ← pop
        let _ ← expect .lparen
        let c ← expression d
        let _ ← expect .rparen
        f c).Meets (s.prepend ts) good OnlyDeep := by
  obtain @⟨t, l, r, ts, c, -, hp, hc⟩ := h
  rw [List.cons_append, List.cons_append, meets_bind, meets_pop, TokenStream.pop_prepend_cons]
  refine expect_cons_and_then hp.1 ?_
  exact (expression_taken hc).closed_and_then (by decide) hp.2 d hnext

/-- The semicolon behind an expression is taken off. -/
theorem closed_takes {e : Expr} {start : Span} {semi : Token} {s : TokenStream}
    (hsemi : semi.kind = .semi) :
    (closed e start).Takes [semi] s (·.bare = .expr .nowhere e.bare) := by
  rw [Takes, closed]
  refine (expect_takes s hsemi).and_then fun _ _ => ?_
  exact ⟨Stmt.bare_expr _ _, rfl⟩

theorem expression_closed_takes {ts : List Token} {e : Expr} {semi : Token} (d : Nat)
    (he : Expression (some .equality) ts e) (hsemi : semi.kind = .semi) (s : TokenStream) :
    (do let e ← expression d
        closed e e.span : Parse Stmt).Takes (ts ++ [semi]) s (·.bare = .expr .nowhere e) := by
  refine (expression_taken he).closed_and_then (by decide) hsemi d fun a ha => ?_
  exact ⟨(Stmt.bare_expr _ _).trans (by rw [ha]), rfl⟩

theorem call_closed_takes {d : Nat} {t l r semi : Token} {ts : List Token} {s : TokenStream}
    {args : List (List Token × Expr)} (hp : Parentheses l r) (hsep : Separated (args.map (·.1)) ts)
    (hargs : ∀ a ∈ args, Expression (some .equality) a.1 a.2) (hsemi : semi.kind = .semi) :
    (do let e ← callOf d t
        closed e t.span : Parse Stmt).Takes (l :: ts ++ [r] ++ [semi]) s
      (·.bare = .expr .nowhere (.call .nowhere t.lexeme (args.map (·.2)))) := by
  rw [Takes, ← TokenStream.prepend_prepend]
  refine (callOf_takes hp hsep hargs fun a ha => expression_taken (hargs a ha)).and_then ?_
  intro e he
  rw [← he]
  exact closed_takes hsemi

theorem block_takes {d : Nat} {l r : Token} {body : List (List Token × Stmt)}
    (hl : l.kind = .lbrace) (hr : r.kind = .rbrace) (hbody : ∀ b ∈ body, Statement b.1 b.2)
    (hitems : ∀ b ∈ body, ∀ d' (s' : TokenStream), s'.front.kind ≠ .kwElse →
      (statement d').Takes b.1 s' (·.bare = b.2)) (s : TokenStream) :
    (block d).Takes (l :: (body.map (·.1)).flatten ++ [r]) s
      (·.bare = .block .nowhere (body.map (·.2))) := by
  cases d with
  | zero => exact rfl
  | succ d =>
    rw [Takes, block, List.cons_append]
    refine expect_cons_and_then hl ?_
    rw [← TokenStream.prepend_prepend, meets_bind, meets_get]
    have hfirst : ∀ b ∈ body, ∃ t us, b.1 = t :: us ∧
        (t.kind == .rbrace || t.kind == .eof) = false ∧ t.kind ≠ .kwElse := by
      intro b hb
      obtain ⟨t, us, heq, ht⟩ := (hbody b hb).first
      have hstarts : ∀ k ∈ statementStarts,
          (k == .rbrace || k == .eof) = false ∧ k ≠ .kwElse := by decide
      exact ⟨t, us, heq, hstarts _ ht⟩
    have hclose : (s.prepend [r]).front.kind = .rbrace := hr
    rw [TokenStream.size_prepend]
    refine Takes.and_then (manyUntil_takes Stmt.bare (· ≠ .kwElse) (by rw [hclose]; rfl)
      (by rw [hclose]; decide) body _ hfirst (fun b hb => hitems b hb d) (Nat.le_add_right ..)) ?_
    intro as has
    refine (expect_takes s hr).and_then fun _ _ => ?_
    exact ⟨by rw [Stmt.bare_block, has], rfl⟩

/-- A statement that begins like an expression and is not reserved is one with a semicolon. -/
theorem statement_meets_general {d : Nat} {s : TokenStream} {good : Stmt → TokenStream → Prop}
    (hstart : s.front.kind ∈ expressionStarts)
    (hres : ¬ (s.front.kind = .kwPrint ∨ s.front.kind = .name ∧
      ((s.ahead 1).kind = .lparen ∨ (s.ahead 1).kind = .assign)))
    (h : (do let e ← expression d
             closed e e.span : Parse Stmt).Meets s good OnlyDeep) :
    (statement (d + 1)).Meets s good OnlyDeep := by
  rw [statement, meets_bind, meets_front]
  -- no keyword of a statement begins an expression, and the other forms are reserved
  split
  · next hkind => rw [hkind] at hstart; exact absurd hstart (by decide)
  · next hkind => rw [hkind] at hstart; exact absurd hstart (by decide)
  · next hkind => rw [hkind] at hstart; exact absurd hstart (by decide)
  · next hkind => rw [hkind] at hstart; exact absurd hstart (by decide)
  · next hkind => exact absurd (.inl hkind) hres
  · next hkind =>
    rw [meets_bind, meets_second]
    split
    · next hassign => exact absurd (.inr ⟨hkind, .inr hassign⟩) hres
    · next hparen => exact absurd (.inr ⟨hkind, .inl hparen⟩) hres
    · exact h
  · exact h

theorem statement_takes {ts : List Token} {st : Stmt} (h : Statement ts st) :
    ∀ (d : Nat) (s : TokenStream), (st.dangles = true → s.front.kind ≠ .kwElse) →
      (statement d).Takes ts s (·.bare = st) := by
  induction h with
  | @retNone k semi hk hsemi =>
    intro d s _
    cases d with
    | zero => exact rfl
    | succ d =>
      rw [Takes, statement, meets_bind, meets_front, TokenStream.front_prepend_cons]
      simp only [hk]
      rw [meets_bind, meets_pop, TokenStream.pop_prepend_cons, meets_bind, meets_check,
        TokenStream.front_prepend_cons, if_pos (beq_iff_eq.mpr hsemi)]
      refine (expect_takes s hsemi).and_then fun _ _ => ?_
      exact ⟨Stmt.bare_ret _ _, rfl⟩
  | @ret k semi ts e hk he hsemi =>
    intro d s _
    cases d with
    | zero => exact rfl
    | succ d =>
      obtain ⟨t, us, rfl, ht⟩ := he.first
      have hstarts : ∀ k ∈ expressionStarts, (k == .semi) = false := by decide
      have hother : (t.kind == .semi) = false := hstarts _ ht
      rw [Takes, statement, meets_bind, meets_front, List.cons_append,
        TokenStream.front_prepend_cons]
      simp only [hk]
      rw [meets_bind, meets_pop, TokenStream.pop_prepend_cons, meets_bind, meets_check,
        List.cons_append, TokenStream.front_prepend_cons, if_neg (by rw [hother]; decide),
        ← List.cons_append]
      refine (expression_taken he).closed_and_then (by decide) hsemi d fun a ha => ?_
      exact ⟨by rw [Stmt.bare_ret, Option.map_some, ha], rfl⟩
  | @ifThen ts c us yes hhead _ ih =>
    intro d s hs
    cases d with
    | zero => exact rfl
    | succ d =>
      obtain ⟨t, vs, rfl, ht⟩ := hhead.first
      rw [Takes, statement, meets_bind, meets_front, List.cons_append,
        TokenStream.front_prepend_cons]
      simp only [ht]
      rw [← List.cons_append, ← TokenStream.prepend_prepend]
      refine head_and_then_takes hhead d fun a ha => ?_
      refine (ih d s fun _ => hs rfl).and_then fun b hb => ?_
      refine accept_other_and_then (hs rfl) ?_
      rw [if_neg (by decide)]
      exact ⟨by rw [Stmt.bare_ifElse, ha, hb]; rfl, rfl⟩
  | @ifElse ts c us yes k vs no hhead _ hyes hk _ ihyes ihno =>
    intro d s hs
    cases d with
    | zero => exact rfl
    | succ d =>
      obtain ⟨t, ws, rfl, ht⟩ := hhead.first
      rw [Takes, statement, meets_bind, meets_front, List.cons_append, List.cons_append,
        TokenStream.front_prepend_cons]
      simp only [ht]
      rw [← List.cons_append, ← List.cons_append, ← TokenStream.prepend_prepend,
        ← TokenStream.prepend_prepend]
      refine head_and_then_takes hhead d fun a ha => ?_
      -- the first branch leaves no `if` open, so it may stand before an `else`
      refine (ihyes d _ fun hopen => absurd hopen (by rw [hyes]; decide)).and_then fun b hb => ?_
      refine accept_cons_and_then hk ?_
      rw [if_pos rfl]
      refine (ihno d s hs).and_then fun c hc => ?_
      exact ⟨by rw [Stmt.bare_ifElse, ha, hb, Option.map_some, hc], rfl⟩
  | @loop ts c us body hhead _ ih =>
    intro d s hs
    cases d with
    | zero => exact rfl
    | succ d =>
      obtain ⟨t, vs, rfl, ht⟩ := hhead.first
      rw [Takes, statement, meets_bind, meets_front, List.cons_append,
        TokenStream.front_prepend_cons]
      simp only [ht]
      rw [← List.cons_append, ← TokenStream.prepend_prepend]
      refine head_and_then_takes hhead d fun a ha => ?_
      refine (ih d s hs).and_then fun b hb => ?_
      exact ⟨by rw [Stmt.bare_loop, ha, hb], rfl⟩
  | @block l r body hl hr hbody ih =>
    intro d s _
    cases d with
    | zero => exact rfl
    | succ d =>
      rw [Takes, statement, meets_bind, meets_front, List.cons_append,
        TokenStream.front_prepend_cons]
      simp only [hl]
      exact block_takes hl hr hbody (fun b hb d' s' hs' => ih b hb d' s' fun _ => hs') s
  | @call semi ts e hcall hsemi =>
    intro d s _
    cases d with
    | zero => exact rfl
    | succ d =>
      obtain @⟨t, l, r, ts, args, ht, hp, hsep, hargs⟩ := hcall
      have htakes := call_closed_takes (d := d) (t := t) (s := s) hp hsep hargs hsemi
      rw [Takes, statement, meets_bind, meets_front, List.cons_append, List.cons_append,
        List.cons_append, List.cons_append, TokenStream.front_prepend_cons]
      rcases ht with ht | ht
      · simp only [ht]
        rw [meets_bind, meets_second, TokenStream.ahead_one_prepend_cons,
          TokenStream.front_prepend_cons]
        simp only [hp.1]
        rw [meets_bind, meets_pop, TokenStream.pop_prepend_cons]
        exact htakes
      · simp only [ht]
        rw [meets_bind, meets_pop, TokenStream.pop_prepend_cons]
        exact htakes
  | @assign t eq semi ts e ht heq he hsemi =>
    intro d s _
    cases d with
    | zero => exact rfl
    | succ d =>
      rw [Takes, statement, meets_bind, meets_front, List.cons_append, List.cons_append,
        TokenStream.front_prepend_cons]
      simp only [ht]
      rw [meets_bind, meets_second, TokenStream.ahead_one_prepend_cons,
        TokenStream.front_prepend_cons]
      simp only [heq]
      rw [meets_bind, meets_pop, TokenStream.pop_prepend_cons, meets_bind, meets_pop,
        TokenStream.pop_prepend_cons]
      refine (expression_taken he).closed_and_then (by decide) hsemi d fun a ha => ?_
      exact ⟨by rw [Stmt.bare_assign, ha], rfl⟩
  | @expr semi ts e he hsemi hres =>
    intro d s _
    cases d with
    | zero => exact rfl
    | succ d =>
      rw [reserved_append_semi s he, TokenStream.prepend_prepend] at hres
      obtain ⟨t, us, rfl, ht⟩ := he.first
      exact statement_meets_general ht hres (expression_closed_takes d he hsemi s)

/-! ## Programs -/

theorem definition_takes {ts : List Token} {f : FunctionDef} (h : Definition ts f) (d : Nat)
    (s : TokenStream) : (definition d).Takes ts s (·.bare = f) := by
  obtain @⟨k, name, l, r, ts, span, body, us, params, hk, hname, hp, hparams, hsep, hbody⟩ := h
  cases d with
  | zero => exact rfl
  | succ d =>
    have htokens : k :: name :: l :: ts ++ r :: us = k :: name :: ((l :: ts ++ [r]) ++ us) := by
      simp
    rw [Takes, definition, htokens]
    refine expect_cons_and_then hk ?_
    refine expect_cons_and_then hname ?_
    rw [← TokenStream.prepend_prepend]
    have hitems : ∀ a ∈ params.map fun t => ([t], t), TakesItem (expect .name) id a := by
      rintro _ ha s -
      obtain ⟨t, ht, rfl⟩ := List.mem_map.mp ha
      exact expect_takes s (hparams t ht)
    have hfirst : ∀ a ∈ params.map fun t => ([t], t), ∃ t us, a.1 = t :: us ∧ t.kind ≠ .rparen := by
      rintro _ ha
      obtain ⟨t, ht, rfl⟩ := List.mem_map.mp ha
      exact ⟨t, [], rfl, by rw [hparams t ht]; decide⟩
    refine (parenthesised_takes (s := s.prepend us) hp (by rwa [List.map_map]) hfirst
      hitems).and_then ?_
    rintro ⟨as, close⟩ ⟨has, rfl⟩
    rw [List.map_id, List.map_map] at has
    cases hbody with
    | block hl' hr' hbody =>
      refine (block_takes hl' hr' hbody (fun b hb d' s' hs' =>
        statement_takes (hbody b hb) d' s' fun _ => hs') s).and_then fun b hb => ?_
      refine ⟨?_, rfl⟩
      show FunctionDef.mk .nowhere name.lexeme (as.map (·.lexeme)) b.bare = _
      rw [hb, show as = params.map id from has, List.map_id]

theorem item_takes {ts : List Token} {i : Item} (h : Top ts i) (d : Nat) (s : TokenStream)
    (hs : s.front.kind ≠ .kwElse) : (item d).Takes ts s (·.bare = i) := by
  rw [Takes, item, meets_bind, meets_check]
  cases h with
  | definition hf =>
    have hkind : (s.prepend ts).front.kind = .kwFunc := by
      obtain ⟨hk, _⟩ := hf
      exact hk
    rw [if_pos (beq_iff_eq.mpr hkind)]
    refine (definition_takes hf d s).and_then fun f hf => ?_
    exact ⟨congrArg Item.definition hf, rfl⟩
  | statement hst =>
    have hkind : (s.prepend ts).front.kind ≠ .kwFunc := by
      obtain ⟨t, us, rfl, ht⟩ := hst.first
      intro hfunc
      rw [TokenStream.front_prepend_cons] at hfunc
      rw [hfunc] at ht
      exact absurd ht (by decide)
    rw [if_neg fun h => hkind (beq_iff_eq.mp h)]
    refine (statement_takes hst d s fun _ => hs).and_then fun a ha => ?_
    exact ⟨congrArg Item.statement ha, rfl⟩

/-- Items are taken off up to an end marker. -/
theorem items_taken {items : List (List Token × Item)} (hitems : ∀ i ∈ items, Top i.1 i.2) (d : Nat)
    {s : TokenStream} (hend : s.front.kind = .eof) :
    (program d).Meets (s.prepend (items.map (·.1)).flatten)
      (fun p _ => p.bare = ⟨.nowhere, Item.definitions (items.map (·.2)),
        .block .nowhere (Item.statements (items.map (·.2)))⟩) OnlyDeep := by
  rw [program, meets_bind, meets_front, meets_bind, meets_get]
  have hfirst : ∀ i ∈ items, ∃ t us, i.1 = t :: us ∧
      (t.kind == .eof) = false ∧ t.kind ≠ .kwElse := by
    intro i hi
    obtain ⟨t, us, heq, ht⟩ := (hitems i hi).first
    have hstarts : ∀ k ∈ Token.Kind.kwFunc :: statementStarts,
        (k == .eof) = false ∧ k ≠ .kwElse := by decide
    exact ⟨t, us, heq, hstarts _ ht⟩
  rw [TokenStream.size_prepend]
  refine Takes.and_then (manyUntil_takes Item.bare (· ≠ .kwElse) (by rw [hend]; rfl)
    (by rw [hend]; decide) items _ hfirst (fun i hi s' hs' => item_takes (hitems i hi) d s' hs')
    (Nat.le_add_right ..)) ?_
  intro is his
  show MiniLang.Program.mk .nowhere ((Item.definitions is).map FunctionDef.bare)
    (Stmt.block _ (Item.statements is)).bare = _
  rw [Stmt.bare_block, ← definitions_bare, ← statements_bare, his]

/-- The tokens of a program are taken off up to the end marker. -/
theorem program_takes {ts : List Token} {p : Program} (h : Grammar.Program ts p) (d : Nat)
    (s : TokenStream) :
    (program d).Meets (s.prepend ts) (fun p' _ => p'.bare = p) OnlyDeep := by
  obtain @⟨items, stop, hitems, hstop⟩ := h
  have hend : (s.prepend [stop]).front.kind = .eof := hstop
  rw [← TokenStream.prepend_prepend]
  exact items_taken hitems d hend

end MiniLang.Parse
