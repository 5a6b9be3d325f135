/-
  Everything that is read is a phrase of the grammar.

  Each reader is shown to consume a phrase of its relation in `Grammar`, for the tree it returns up
  to places, and at the same time to need no more frames than `11` for each queued token and a few
  more.  The readers that take a smaller number of frames are given as hypotheses, so that each
  function of the parser has one lemma; `expressions_sound` and `statements_sound` tie the knots by
  induction on the frames.

  The number `11` is what a pair of parentheses costs: one frame for the expression in them, two for
  each of the four levels, one for the operand and one for the parentheses themselves.
-/
import MiniLang.Proofs.Parsing.Repetition

namespace MiniLang.Parse

open Grammar

variable {d c : Nat}

/-! ## Expressions -/

/-- The reader of the operands of a level, and of unary expressions below the levels. -/
def ofLevel (d : Nat) : Option Level → Parse Expr
  | some l => level d l
  | none => unary d

/-- The frames that a level takes for itself and the levels below it. -/
def levelFrames : Option Level → Nat
  | some .equality => 10
  | some .relational => 8
  | some .additive => 6
  | some .multiplicative => 4
  | none => 2

theorem level_succ (d : Nat) (l : Level) : level (d + 2) l = (do
    let first ← ofLevel d l.tighter?
    chain l.holds (ofLevel d l.tighter?) (← get).size first) := by
  cases l <;> rfl

/-- No operator is an end marker. -/
theorem ne_eof_of_holds {l : Level} {k : Token.Kind} (h : l.holds k = true) : k ≠ .eof := by
  rintro rfl
  cases l <;> exact absurd h (by decide)

/-- What a chain adds to the expression on its left. -/
def Extended (l : Level) (left : Expr) (ts : List Token) (e : Expr) : Prop :=
  ∀ us, Expression (some l) us left.bare → Expression (some l) (us ++ ts) e.bare

theorem chain_reads {l : Level} {operand : Parse Expr}
    (hoperand : Reads d c operand fun ts e => Expression l.tighter? ts e.bare) :
    ∀ n left, Reads d c (chain l.holds operand n left) (Extended l left) := by
  intro n
  induction n with
  | zero =>
    intro left s _
    exact ⟨[], rfl, fun us hus => by rwa [List.append_nil]⟩
  | succ n ih =>
    intro left s hs
    rw [chain, meets_bind, meets_front]
    split
    · next hop =>
      refine pop_and_then hs (ne_eof_of_holds hop) ?_
      rintro op s rfl
      refine hoperand.and_then hs (by simp; omega) ?_
      rintro right ts s rfl hright
      refine ((ih _ s hs).mono ?_ fun halt h => h.trans (by simp; omega))
      rintro e s' ⟨us, rfl, he⟩
      -- the row so far takes the operator and its operand in, and the rest of the chain follows
      refine ⟨op :: ts ++ us, by simp, fun vs hvs => ?_⟩
      have hbinary := he (vs ++ op :: ts) (by rw [Expr.bare_binary]; exact .binary hvs hop hright)
      rwa [List.append_assoc] at hbinary
    · exact ⟨[], rfl, fun us hus => by rwa [List.append_nil]⟩

/-- The readers of expressions are sound within `d` frames. -/
structure ExpressionsSound (d : Nat) : Prop where
  expression : Reads d 11 (expression d) fun ts e => Expression (some .equality) ts e.bare
  ofLevel : ∀ o, Reads d (levelFrames o) (ofLevel d o) fun ts e => Expression o ts e.bare
  primary : Reads d 1 (primary d) fun ts e => Expression none ts e.bare
  callOf : ∀ t, t.kind = .name ∨ t.kind = .kwPrint →
    Reads d 1 (callOf d t) fun ts e => Call (t :: ts) e.bare

theorem expression_reads (h : ExpressionsSound d) :
    Reads (d + 1) 11 (expression (d + 1)) fun ts e => Expression (some .equality) ts e.bare := by
  intro s hs
  rw [expression]
  refine (h.ofLevel (some .equality) s hs).mono (fun _ _ h => h) fun halt h => h.trans ?_
  simp only [levelFrames]
  omega

theorem level_reads (l : Level)
    (h : Reads d (levelFrames l.tighter?) (ofLevel d l.tighter?)
      fun ts e => Expression l.tighter? ts e.bare) :
    Reads (d + 2) (levelFrames (some l)) (level (d + 2) l)
      fun ts e => Expression (some l) ts e.bare := by
  have hframes : levelFrames (some l) = levelFrames l.tighter? + 2 := by cases l <;> rfl
  intro s hs
  rw [level_succ, hframes]
  refine h.and_then hs (by omega) ?_
  rintro first ts s rfl hfirst
  rw [meets_bind, meets_get]
  refine (chain_reads h _ first s hs).mono ?_ fun halt h => h.trans (by simp; omega)
  rintro e s' ⟨us, rfl, he⟩
  exact ⟨ts ++ us, by simp, he ts (.operand hfirst)⟩

theorem unary_reads (h : ExpressionsSound d) :
    Reads (d + 1) 2 (unary (d + 1)) fun ts e => Expression none ts e.bare := by
  intro s hs
  rw [unary, meets_bind, meets_front]
  refine accept_and_then (by decide) hs ?_ fun _ => ?_
  · rintro sign s rfl hsign
    refine (h.ofLevel none).and_then hs (by simp [levelFrames]; omega) ?_
    rintro operand ts s rfl hoperand
    refine ⟨sign :: ts, by simp, ?_⟩
    show Expression none (sign :: ts) (Expr.bare _)
    rw [Expr.bare_binary, Expr.bare_lit]
    exact .minus hsign hoperand
  · exact (h.primary s hs).mono (fun _ _ h => h) fun halt h => h.trans (by omega)

theorem callOf_reads (h : ExpressionsSound d) (t : Token)
    (ht : t.kind = .name ∨ t.kind = .kwPrint) :
    Reads (d + 1) 1 (callOf (d + 1) t) fun ts e => Call (t :: ts) e.bare := by
  intro s hs
  rw [callOf]
  refine (parenthesised_reads (c := 0) h.expression).and_then hs (by omega) ?_
  rintro ⟨args, close⟩ ts s rfl ⟨l, us, rfl, hl, parts, hsep, hparts, rfl⟩
  refine ⟨_, rfl, ?_⟩
  show Call (t :: (l :: us ++ [close])) (Expr.bare _)
  rw [Expr.bare_call, List.map_map]
  have hcall := @Call.mk _ _ _ _ (parts.map fun a => (a.1, a.2.bare)) ht hl
    (by rwa [List.map_map]) (List.forall_mem_map.mpr hparts)
  rwa [List.map_map] at hcall

theorem primary_reads (h : ExpressionsSound d) :
    Reads (d + 1) 1 (primary (d + 1)) fun ts e => Expression none ts e.bare := by
  intro s hs
  rw [primary, meets_bind, meets_front]
  split
  · -- a number
    next hkind =>
    refine pop_and_then hs (by rw [hkind]; decide) ?_
    rintro t s rfl
    refine ⟨[t], rfl, ?_⟩
    show Expression none [t] (Expr.bare _)
    rw [Expr.bare_lit]
    exact .number hkind
  · -- a name, called or not
    next hkind =>
    refine pop_and_then hs (by rw [hkind]; decide) ?_
    rintro t s rfl
    rw [meets_bind, meets_check]
    split
    · refine (h.callOf t (.inl hkind) s hs).mono ?_ fun halt h => h.trans (by simp; omega)
      rintro e s' ⟨ts, rfl, he⟩
      exact ⟨t :: ts, by simp, he.expression⟩
    · refine ⟨[t], rfl, ?_⟩
      show Expression none [t] (Expr.bare _)
      rw [Expr.bare_var]
      exact .name hkind
  · -- print, which must be called
    next hkind =>
    refine pop_and_then hs (by rw [hkind]; decide) ?_
    rintro t s rfl
    rw [meets_bind, meets_check]
    split
    · refine (h.callOf t (.inr hkind) s hs).mono ?_ fun halt h => h.trans (by simp; omega)
      rintro e s' ⟨ts, rfl, he⟩
      exact ⟨t :: ts, by simp, he.expression⟩
    · exact short_wrong
  · -- an expression in parentheses
    next hkind =>
    refine pop_and_then hs (by rw [hkind]; decide) ?_
    rintro l s rfl
    refine h.expression.and_then hs (by simp; omega) ?_
    rintro e ts s rfl he
    refine expect_and_then (by decide) hs ?_
    rintro r s rfl hr
    exact ⟨l :: ts ++ [r], by simp, .parens ⟨hkind, hr⟩ he⟩
  · exact short_wrong

theorem expressions_sound : ∀ d, ExpressionsSound d := by
  intro d
  induction d using Nat.strongRecOn with
  | ind d ih =>
    have hdeep : ∀ {α : Type} {c : Nat} {p : Parse α} {G : List Token → α → Prop},
        p = tooDeep → d < c → Reads d c p G := by
      rintro α c p G rfl hd s hs
      exact fun _ => by omega
    -- a level hands on two frames less, so the induction looks two steps back
    cases d with
    | zero =>
      refine ⟨hdeep rfl (by omega), fun o => ?_, hdeep rfl (by omega),
        fun t _ => hdeep rfl (by omega)⟩
      rcases o with _ | l
      · exact hdeep rfl (by decide)
      · exact hdeep (by cases l <;> rfl) (by cases l <;> decide)
    | succ d =>
      have h := ih d (by omega)
      refine ⟨expression_reads h, fun o => ?_, primary_reads h, callOf_reads h⟩
      rcases o with _ | l
      · exact unary_reads h
      · cases d with
        | zero => exact hdeep (by cases l <;> rfl) (by cases l <;> decide)
        | succ d => exact level_reads l ((ih d (by omega)).ofLevel _)

/-! ## Statements -/

@[simp] theorem dangles_bare (s : Stmt) : s.bare.dangles = s.dangles := by
  fun_induction Stmt.dangles s with
  | case1 => rw [Stmt.bare_ifElse]; rfl
  | case2 _ _ _ no ih => rw [Stmt.bare_ifElse]; exact ih
  | case3 _ _ body ih => rw [Stmt.bare_loop]; exact ih
  | case4 s h₁ h₂ h₃ =>
    cases s with
    | ifElse _ _ _ no =>
      cases no with
      | none => exact absurd rfl (h₁ _ _ _)
      | some no => exact absurd rfl (h₂ _ _ _ _)
    | loop => exact absurd rfl (h₃ _ _ _)
    | stray => rw [Stmt.bare_stray]; rfl
    | block => rw [Stmt.bare_block]; rfl
    | expr => rw [Stmt.bare_expr]; rfl
    | assign => rw [Stmt.bare_assign]; rfl
    | ret => rw [Stmt.bare_ret]; rfl

/-- The reader consumes a statement, and no `else` is left that could have been part of it. -/
def ReadsStatement (d : Nat) (p : Parse Stmt) : Prop :=
  ∀ s : TokenStream, s.Ended →
    p.Meets s (fun a s' => ∃ ts, s = s'.prepend ts ∧ Statement ts a.bare ∧
      (a.dangles = true → s'.front.kind ≠ .kwElse)) (Short d (11 * s.size + 12))

theorem ReadsStatement.reads {p : Parse Stmt} (h : ReadsStatement d p) :
    Reads d 12 p fun ts a => Statement ts a.bare :=
  fun s hs => (h s hs).mono (fun _ _ ⟨ts, hts, ha, _⟩ => ⟨ts, hts, ha⟩) fun _ h => h

/-- The readers of statements are sound within `d` frames. -/
structure StatementsSound (d : Nat) : Prop where
  statement : ReadsStatement d (statement d)
  block : Reads d 2 (block d) fun ts a => Statement ts a.bare ∧ ∃ span body, a = .block span body

theorem block_reads (h : StatementsSound d) :
    Reads (d + 1) 2 (block (d + 1)) fun ts a =>
      Statement ts a.bare ∧ ∃ span body, a = .block span body := by
  intro s hs
  rw [block]
  refine expect_and_then (by decide) hs ?_
  rintro l s rfl hl
  rw [meets_bind, meets_get, meets_bind]
  have hne : ∀ ts (a : Stmt), Statement ts a.bare → ts ≠ [] := by
    rintro ts a ha rfl
    obtain ⟨t, us, hnil, -⟩ := ha.first
    exact List.cons_ne_nil t us hnil.symm
  refine (manyUntil_meets rfl h.statement.reads hne _ s hs).mono ?_
    fun halt h => h.trans (by simp; omega)
  rintro body s' ⟨⟨ts, rfl, parts, rfl, hparts, rfl⟩, -⟩
  refine expect_and_then (by decide) hs ?_
  rintro r s rfl hr
  refine ⟨l :: (parts.map (·.1)).flatten ++ [r], by simp, ?_, _, _, rfl⟩
  have hblock := @Statement.block _ _ (parts.map fun a => (a.1, a.2.bare)) hl hr
    (List.forall_mem_map.mpr hparts)
  rw [List.map_map, List.map_map] at hblock
  rw [Stmt.bare_block, List.map_map]
  exact hblock

/-- A keyword that is known to stand in front, and a condition in parentheses. -/
theorem head_and_then {β : Type} {D N : Nat} {k : Token.Kind} (hk : k ≠ .eof)
    {f : Expr → Parse β} {s : TokenStream} {good : β → TokenStream → Prop} (hs : s.Ended)
    (hfront : s.front.kind = k) (hle : d < 11 * s.size → D < N)
    (hnext : ∀ c ts s', s = s'.prepend ts → 0 < ts.length → Head k ts c.bare →
      (f c).Meets s' good (Short D N)) :
    (do let _ ← pop
        let _ ← expect .lparen
        let c ← expression d
        let _ ← expect .rparen
        f c).Meets s good (Short D N) := by
  refine pop_and_then hs (hfront ▸ hk) ?_
  rintro t s rfl
  refine expect_and_then (by decide) hs ?_
  rintro l s rfl hl
  refine (expressions_sound d).expression.and_then hs (by simp at hle; omega) ?_
  rintro c ts s rfl hc
  refine expect_and_then (by decide) hs ?_
  rintro r s rfl hr
  exact hnext c (t :: l :: ts ++ [r]) s (by simp) (by simp) (.mk hfront ⟨hl, hr⟩ hc)

/-- An expression that was read as the phrase `ts`, and the semicolon after it. -/
theorem closed_meets {D N : Nat} {e : Expr} {start : Span} {s₀ s : TokenStream} {ts : List Token}
    (hs : s.Ended) (h₀ : s₀ = s.prepend ts)
    (h : ∀ semi (s' : TokenStream), s = s'.prepend [semi] → semi.kind = .semi →
      Statement (ts ++ [semi]) (.expr .nowhere e.bare)) :
    (closed e start).Meets s (fun a s' => ∃ us, s₀ = s'.prepend us ∧ Statement us a.bare ∧
      (a.dangles = true → s'.front.kind ≠ .kwElse)) (Short D N) := by
  rw [closed]
  refine expect_and_then (by decide) hs ?_
  rintro semi s' rfl hsemi
  refine ⟨ts ++ [semi], by rw [h₀, TokenStream.prepend_prepend], ?_, nofun⟩
  rw [Stmt.bare_expr]
  exact h semi s' rfl hsemi

/-- Whether a phrase is reserved shows in the two tokens in front. -/
theorem reserved_append_semi {o : Option Level} {ts : List Token} {e : Expr} {semi : Token}
    (s : TokenStream) (h : Expression o ts e) :
    Reserved (ts ++ [semi]) ↔ ((s.prepend [semi]).prepend ts).front.kind = .kwPrint ∨
      ((s.prepend [semi]).prepend ts).front.kind = .name ∧
        ((((s.prepend [semi]).prepend ts).ahead 1).kind = .lparen ∨
          (((s.prepend [semi]).prepend ts).ahead 1).kind = .assign) := by
  obtain ⟨t, us, rfl, -⟩ := h.first
  rcases us with _ | ⟨u, us⟩
  · simp [Reserved]
  · simp [Reserved]

theorem statement_reads (h : StatementsSound d) : ReadsStatement (d + 1) (statement (d + 1)) := by
  have hexpr := (expressions_sound d).expression
  have hcall := (expressions_sound d).callOf
  intro s hs
  rw [statement, meets_bind, meets_front]
  split
  · -- return
    next hkind =>
    refine pop_and_then hs (by rw [hkind]; decide) ?_
    rintro t s rfl
    rw [meets_bind, meets_check]
    split
    · refine expect_and_then (by decide) hs ?_
      rintro semi s rfl hsemi
      refine ⟨[t, semi], by simp, ?_, nofun⟩
      rw [Stmt.bare_ret]
      exact .retNone hkind hsemi
    · refine hexpr.and_then hs (by simp; omega) ?_
      rintro e ts s rfl he
      refine expect_and_then (by decide) hs ?_
      rintro semi s rfl hsemi
      refine ⟨t :: ts ++ [semi], by simp, ?_, nofun⟩
      rw [Stmt.bare_ret]
      exact .ret hkind he hsemi
  · -- if
    next hkind =>
    refine head_and_then (by decide) hs hkind (by omega) ?_
    rintro c ts s rfl hlen hc
    rw [meets_bind]
    refine (h.statement s hs).mono ?_ fun halt h => h.trans (by simp; omega)
    rintro yes s' ⟨us, rfl, hyes, hdangles⟩
    refine accept_and_then (by decide) hs ?_ fun hno => ?_
    · rintro k s rfl hk
      rw [if_pos rfl, meets_bind]
      refine (h.statement s hs).mono ?_ fun halt h => h.trans (by simp; omega)
      rintro no s' ⟨vs, rfl, hno, hdangles'⟩
      refine ⟨ts ++ us ++ k :: vs, by simp, ?_, hdangles'⟩
      -- an `else` was still there, so no `if` of the first branch could take it
      have hclosed : yes.bare.dangles = false := by
        rw [dangles_bare]
        exact Bool.eq_false_iff.mpr fun hopen => hdangles hopen hk
      rw [Stmt.bare_ifElse]
      exact .ifElse hc hyes hclosed hk hno
    · rw [if_neg (by decide)]
      refine ⟨ts ++ us, by simp, ?_, fun _ => hno⟩
      rw [Stmt.bare_ifElse]
      exact .ifThen hc hyes
  · -- while
    next hkind =>
    refine head_and_then (by decide) hs hkind (by omega) ?_
    rintro c ts s rfl hlen hc
    rw [meets_bind]
    refine (h.statement s hs).mono ?_ fun halt h => h.trans (by simp; omega)
    rintro body s' ⟨us, rfl, hbody, hdangles⟩
    refine ⟨ts ++ us, by simp, ?_, hdangles⟩
    rw [Stmt.bare_loop]
    exact .loop hc hbody
  · -- a block
    refine (h.block s hs).mono ?_ fun halt h => h.trans (by omega)
    rintro a s' ⟨ts, rfl, ha, span, body, rfl⟩
    exact ⟨ts, rfl, ha, nofun⟩
  · -- print
    next hkind =>
    refine pop_and_then hs (by rw [hkind]; decide) ?_
    rintro t s rfl
    refine (hcall t (.inr hkind)).and_then hs (by simp; omega) ?_
    rintro e ts s rfl he
    exact closed_meets (s := s) hs (by simp) fun semi _ _ hsemi => .call he hsemi
  · -- a name, and what follows it
    next hkind =>
    rw [meets_bind, meets_second]
    split
    · next hassign =>
      refine pop_and_then hs (by rw [hkind]; decide) ?_
      rintro t s rfl
      rw [TokenStream.ahead_one_prepend_cons] at hassign
      refine pop_and_then (s := s) hs (by rw [← TokenStream.prepend_nil s, hassign]; decide) ?_
      rintro eq s rfl
      refine hexpr.and_then (s := s) hs (by simp; omega) ?_
      rintro e ts s rfl he
      refine expect_and_then (by decide) hs ?_
      rintro semi s rfl hsemi
      refine ⟨t :: eq :: ts ++ [semi], by simp, ?_, nofun⟩
      rw [Stmt.bare_assign]
      exact .assign hkind hassign he hsemi
    · next hparen =>
      refine pop_and_then hs (by rw [hkind]; decide) ?_
      rintro t s rfl
      refine (hcall t (.inl hkind)).and_then (s := s) hs (by simp; omega) ?_
      rintro e ts s rfl he
      exact closed_meets (s := s) hs (by simp) fun semi _ _ hsemi => .call he hsemi
    · next hassign hparen =>
      refine hexpr.and_then hs (by omega) ?_
      rintro e ts s rfl he
      refine closed_meets hs rfl ?_
      rintro semi s rfl hsemi
      refine .expr he hsemi ?_
      rw [reserved_append_semi s he, hkind]
      rintro (h | ⟨-, h | h⟩)
      · exact absurd h (by decide)
      · exact hparen h
      · exact hassign h
  · -- any other beginning
    next hprint hname =>
    refine hexpr.and_then hs (by omega) ?_
    rintro e ts s rfl he
    refine closed_meets hs rfl ?_
    rintro semi s rfl hsemi
    refine .expr he hsemi ?_
    rw [reserved_append_semi s he]
    rintro (h | ⟨h, -⟩)
    · exact hprint h
    · exact hname h

theorem statements_sound : ∀ d, StatementsSound d := by
  intro d
  induction d with
  | zero => exact ⟨fun s _ _ => by omega, fun s _ _ => by omega⟩
  | succ d ih => exact ⟨statement_reads ih, block_reads ih⟩

/-! ## Programs -/

theorem expect_reads {k : Token.Kind} (hk : k ≠ .eof) :
    Reads d c (expect k) fun ts t => ts = [t] ∧ t.kind = k := by
  intro s hs
  rw [meets_expect]
  split
  · next h => exact ⟨[s.front], TokenStream.eq_prepend_front hs (h ▸ hk), rfl, h⟩
  · exact short_wrong

theorem definition_reads (d : Nat) :
    Reads d 12 (definition d) fun ts f => Definition ts f.bare := by
  rcases d with _ | d
  · exact fun s _ _ => by omega
  intro s hs
  rw [definition]
  refine expect_and_then (by decide) hs ?_
  rintro k s rfl hk
  refine expect_and_then (by decide) hs ?_
  rintro name s rfl hname
  refine (parenthesised_reads (d := d) (c := 0) (expect_reads (by decide))).and_then (s := s) hs
    (by simp; omega) ?_
  rintro ⟨params, r⟩ ts s rfl ⟨l, us, rfl, hp, parts, hsep, hparts, rfl⟩
  have hnames : parts.map (·.1) = (parts.map (·.2)).map ([·]) := by
    rw [List.map_map]
    exact List.map_congr_left fun part hpart => (hparts part hpart).1
  rw [hnames] at hsep
  refine ((statements_sound d).block).and_then (s := s) hs (by simp; omega) ?_
  rintro _ vs s rfl ⟨hbody, span, body, rfl⟩
  refine ⟨k :: name :: l :: us ++ r :: vs, by simp, ?_⟩
  rw [Stmt.bare_block] at hbody
  have hdef := Definition.mk hk hname hp
    (List.forall_mem_map.mpr fun part hpart => (hparts part hpart).2) hsep hbody
  show Definition _ ⟨.nowhere, name.lexeme, _, (Stmt.block span body).bare⟩
  rw [Stmt.bare_block]
  exact hdef

/-- An item without places. -/
def Item.bare : Item → Item
  | .definition f => .definition f.bare
  | .statement s => .statement s.bare

theorem item_reads (d : Nat) : Reads d 12 (item d) fun ts i => Top ts i.bare := by
  intro s hs
  rw [item, meets_bind, meets_check]
  split
  · refine (definition_reads d).and_then hs id ?_
    rintro f ts s rfl hf
    exact ⟨ts, rfl, .definition hf⟩
  · refine (statements_sound d).statement.reads.and_then hs id ?_
    rintro a ts s rfl ha
    exact ⟨ts, rfl, .statement ha⟩

theorem definitions_bare (items : List Item) :
    Item.definitions (items.map Item.bare) = (Item.definitions items).map FunctionDef.bare := by
  induction items with
  | nil => rfl
  | cons i items ih => cases i <;> simpa [Item.definitions, Item.bare] using ih

theorem statements_bare (items : List Item) :
    Item.statements (items.map Item.bare) = (Item.statements items).map Stmt.bare := by
  induction items with
  | nil => rfl
  | cons i items ih => cases i <;> simpa [Item.statements, Item.bare] using ih

/-- A whole program is read up to the first end marker. -/
theorem program_meets (d : Nat) {s : TokenStream} (hs : s.Ended) :
    (program d).Meets s (fun p s' => s'.front.kind = .eof ∧
      ∃ ts, s = s'.prepend ts ∧ ∀ stop, stop.kind = .eof → Grammar.Program (ts ++ [stop]) p.bare)
      (Short d (11 * s.size + 12)) := by
  rw [program, meets_bind, meets_front, meets_bind, meets_get, meets_bind]
  have hne : ∀ ts (i : Item), Top ts i.bare → ts ≠ [] := by
    rintro ts i hi rfl
    obtain ⟨t, us, hnil, -⟩ := hi.first
    exact List.cons_ne_nil t us hnil.symm
  refine (manyUntil_meets rfl (item_reads d) hne _ s hs).mono ?_ fun _ h => h
  rintro items s' ⟨⟨ts, rfl, parts, rfl, hparts, rfl⟩, hend⟩
  refine ⟨beq_iff_eq.mp (hend (Nat.le_refl _)), _, rfl, fun stop hstop => ?_⟩
  have hprogram := @Grammar.Program.mk (parts.map fun i => (i.1, i.2.bare)) _
    (List.forall_mem_map.mpr hparts) hstop
  have hitems :
      (parts.map fun i => (i.1, i.2.bare)).map (·.2) = (parts.map (·.2)).map Item.bare := by
    rw [List.map_map, List.map_map]
    rfl
  rw [hitems, definitions_bare, statements_bare, List.map_map] at hprogram
  show Grammar.Program _ ⟨.nowhere, _, (Stmt.block _ _).bare⟩
  rw [Stmt.bare_block]
  exact hprogram

end MiniLang.Parse
