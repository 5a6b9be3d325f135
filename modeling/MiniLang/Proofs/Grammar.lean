/-
  The grammar of programs, stated apart from any reader of them.

  A phrase is a list of tokens, and each relation below says which tree a phrase stands for.  Only
  the kinds of the tokens decide what is a phrase; the texts of names and the values of numbers
  go into the tree.  The trees carry no places (see `MiniLang.Proofs.Bare`).

  1. **Expressions** — `Grammar.Expression (some l)` is a row of operands with operators of the
     level `l` between them, grouped to the left, and an operand of a level is an expression of the
     next tighter one; `Grammar.Expression none` is what no operator joins: a number, a name, a
     call, an expression in parentheses, or any of these after minus signs.
  2. **Statements** — an `else` belongs to the nearest `if` that can take it, so the branch before
     an `else` must not end in an `if` that still could (`Stmt.dangles`).
  3. **Programs** — definitions and statements in any order, up to the end marker.
  4. **First tokens** — no phrase of an expression or a statement is empty, and the kinds that one
     may begin with are listed.
  5. **End markers** — the one that ends a program is the only one in it.
-/
import MiniLang.Program.Parser
import MiniLang.Proofs.Bare

namespace MiniLang

open Parse (Level Item)

/-- Could an `else` that follows still belong to an `if` at the end of this statement? -/
def Stmt.dangles : Stmt → Bool
  | .ifElse _ _ _ none => true
  | .ifElse _ _ _ (some no) => no.dangles
  | .loop _ _ body => body.dangles
  | _ => false

namespace Grammar

/-! ## Expressions -/

/-- Some phrases in a row, with a comma before each of them. -/
inductive AfterCommas : List (List Token) → List Token → Prop
  | nil : AfterCommas [] []
  | cons {comma p ps ts} : comma.kind = .comma → AfterCommas ps ts →
      AfterCommas (p :: ps) (comma :: p ++ ts)

/-- Some phrases in a row, with commas between them. -/
inductive Separated : List (List Token) → List Token → Prop
  | nil : Separated [] []
  | cons {p ps ts} : AfterCommas ps ts → Separated (p :: ps) (p ++ ts)

/-- Do these tokens stand around a row in parentheses? -/
def Parentheses (opening closing : Token) : Prop :=
  opening.kind = .lparen ∧ closing.kind = .rparen

/-- A phrase and the expression it stands for. -/
inductive Expression : Option Level → List Token → Expr → Prop
  | number {t} : t.kind = .int → Expression none [t] (.lit .nowhere (t.value.getD 0))
  | name {t} : t.kind = .name → Expression none [t] (.var .nowhere t.lexeme)
  | call {t l r ts} {args : List (List Token × Expr)} : t.kind = .name ∨ t.kind = .kwPrint →
      Parentheses l r → Separated (args.map (·.1)) ts →
      (∀ a ∈ args, Expression (some .equality) a.1 a.2) →
      Expression none (t :: l :: ts ++ [r]) (.call .nowhere t.lexeme (args.map (·.2)))
  | parens {l r ts e} : Parentheses l r → Expression (some .equality) ts e →
      Expression none (l :: ts ++ [r]) e
  /-- A minus sign is a difference from zero. -/
  | minus {t ts e} : t.kind = .minus → Expression none ts e →
      Expression none (t :: ts) (.binary .nowhere (.lit .nowhere 0) .minus e)
  | operand {l : Level} {ts e} : Expression l.tighter? ts e → Expression (some l) ts e
  | binary {l : Level} {ts a op us b} : Expression (some l) ts a → l.holds op.kind = true →
      Expression l.tighter? us b →
      Expression (some l) (ts ++ op :: us) (.binary .nowhere a op.kind b)

/-- What no operator joins may stand anywhere. -/
theorem Expression.of_none {ts : List Token} {e : Expr} (h : Expression none ts e) :
    ∀ o, Expression o ts e := by
  have hmultiplicative : Expression (some .multiplicative) ts e := .operand h
  have hadditive : Expression (some .additive) ts e := .operand hmultiplicative
  have hrelational : Expression (some .relational) ts e := .operand hadditive
  intro o
  rcases o with _ | _ | _ | _ | _
  · exact h
  · exact .operand hrelational
  · exact hrelational
  · exact hadditive
  · exact hmultiplicative

/-- A call, which is an expression and also a statement of its own. -/
inductive Call : List Token → Expr → Prop
  | mk {t l r ts} {args : List (List Token × Expr)} : t.kind = .name ∨ t.kind = .kwPrint →
      Parentheses l r → Separated (args.map (·.1)) ts →
      (∀ a ∈ args, Expression (some .equality) a.1 a.2) →
      Call (t :: l :: ts ++ [r]) (.call .nowhere t.lexeme (args.map (·.2)))

theorem Call.expression {ts : List Token} {e : Expr} (h : Call ts e) : Expression none ts e := by
  obtain ⟨ht, hp, hsep, hargs⟩ := h
  exact .call ht hp hsep hargs

/-! ## Statements -/

/-- Tokens that begin a call or an assignment, and hence no other statement: `print`, or a name
    before a parenthesis or an equals sign. -/
def Reserved : List Token → Prop
  | t :: u :: _ => t.kind = .kwPrint ∨ t.kind = .name ∧ (u.kind = .lparen ∨ u.kind = .assign)
  | [t] => t.kind = .kwPrint
  | [] => False

/-- A condition in parentheses after a keyword. -/
inductive Head (keyword : Token.Kind) : List Token → Expr → Prop
  | mk {k l r ts c} : k.kind = keyword → Parentheses l r → Expression (some .equality) ts c →
      Head keyword (k :: l :: ts ++ [r]) c

/-- A phrase and the statement it stands for. -/
inductive Statement : List Token → Stmt → Prop
  | retNone {k s} : k.kind = .kwReturn → s.kind = .semi → Statement [k, s] (.ret .nowhere none)
  | ret {k s ts e} : k.kind = .kwReturn → Expression (some .equality) ts e → s.kind = .semi →
      Statement (k :: ts ++ [s]) (.ret .nowhere (some e))
  | ifThen {ts c us yes} : Head .kwIf ts c → Statement us yes →
      Statement (ts ++ us) (.ifElse .nowhere c yes none)
  | ifElse {ts c us yes k vs no} : Head .kwIf ts c → Statement us yes → yes.dangles = false →
      k.kind = .kwElse → Statement vs no →
      Statement (ts ++ us ++ k :: vs) (.ifElse .nowhere c yes (some no))
  | loop {ts c us body} : Head .kwWhile ts c → Statement us body →
      Statement (ts ++ us) (.loop .nowhere c body)
  | block {l r} {body : List (List Token × Stmt)} : l.kind = .lbrace → r.kind = .rbrace →
      (∀ b ∈ body, Statement b.1 b.2) →
      Statement (l :: (body.map (·.1)).flatten ++ [r]) (.block .nowhere (body.map (·.2)))
  /-- A call as a statement: nothing may follow the call but the semicolon. -/
  | call {s ts e} : Call ts e → s.kind = .semi → Statement (ts ++ [s]) (.expr .nowhere e)
  | assign {t eq s ts e} : t.kind = .name → eq.kind = .assign → Expression (some .equality) ts e →
      s.kind = .semi → Statement (t :: eq :: ts ++ [s]) (.assign .nowhere t.lexeme e)
  | expr {s ts e} : Expression (some .equality) ts e → s.kind = .semi → ¬ Reserved (ts ++ [s]) →
      Statement (ts ++ [s]) (.expr .nowhere e)

/-! ## Programs -/

/-- A phrase and the definition it stands for; the body is a block. -/
inductive Definition : List Token → FunctionDef → Prop
  | mk {k name l r ts span body us} {params : List Token} : k.kind = .kwFunc → name.kind = .name →
      Parentheses l r → (∀ p ∈ params, p.kind = .name) → Separated (params.map ([·])) ts →
      Statement us (.block span body) →
      Definition (k :: name :: l :: ts ++ r :: us)
        ⟨.nowhere, name.lexeme, params.map (·.lexeme), .block span body⟩

/-- A phrase at the top of a program and what it stands for. -/
inductive Top : List Token → Item → Prop
  | definition {ts f} : Definition ts f → Top ts (.definition f)
  | statement {ts s} : Statement ts s → Top ts (.statement s)

/-- The tokens of a whole program, with the end marker, and the program. -/
inductive Program : List Token → MiniLang.Program → Prop
  | mk {items : List (List Token × Item)} {stop} : (∀ i ∈ items, Top i.1 i.2) →
      stop.kind = .eof →
      Program ((items.map (·.1)).flatten ++ [stop])
        ⟨.nowhere, Item.definitions (items.map (·.2)),
          .block .nowhere (Item.statements (items.map (·.2)))⟩

/-! ## First tokens -/

/-- The kinds that an expression may begin with. -/
def expressionStarts : List Token.Kind := [.int, .name, .kwPrint, .lparen, .minus]

/-- The kinds that a statement may begin with. -/
def statementStarts : List Token.Kind :=
  expressionStarts ++ [.kwReturn, .kwIf, .kwWhile, .lbrace]

theorem Expression.first {o : Option Level} {ts : List Token} {e : Expr} (h : Expression o ts e) :
    ∃ t us, ts = t :: us ∧ t.kind ∈ expressionStarts := by
  induction h with
  | number ht => exact ⟨_, _, rfl, by rw [ht]; decide⟩
  | name ht => exact ⟨_, _, rfl, by rw [ht]; decide⟩
  | call ht => exact ⟨_, _, rfl, by rcases ht with ht | ht <;> rw [ht] <;> decide⟩
  | parens hp => exact ⟨_, _, rfl, by rw [hp.1]; decide⟩
  | minus ht => exact ⟨_, _, rfl, by rw [ht]; decide⟩
  | operand _ ih => exact ih
  | binary _ _ _ ih =>
    obtain ⟨t, us, rfl, ht⟩ := ih
    exact ⟨t, _, rfl, ht⟩

theorem Head.first {k : Token.Kind} {ts : List Token} {c : Expr} (h : Head k ts c) :
    ∃ t us, ts = t :: us ∧ t.kind = k := by
  obtain ⟨hk, _, _⟩ := h
  exact ⟨_, _, rfl, hk⟩

theorem Statement.first {ts : List Token} {s : Stmt} (h : Statement ts s) :
    ∃ t us, ts = t :: us ∧ t.kind ∈ statementStarts := by
  cases h with
  | retNone hk => exact ⟨_, _, rfl, by rw [hk]; decide⟩
  | ret hk => exact ⟨_, _, rfl, by rw [hk]; decide⟩
  | ifThen hhead =>
    obtain ⟨t, us, rfl, ht⟩ := hhead.first
    exact ⟨t, _, rfl, by rw [ht]; decide⟩
  | ifElse hhead =>
    obtain ⟨t, us, rfl, ht⟩ := hhead.first
    exact ⟨t, _, rfl, by rw [ht]; decide⟩
  | loop hhead =>
    obtain ⟨t, us, rfl, ht⟩ := hhead.first
    exact ⟨t, _, rfl, by rw [ht]; decide⟩
  | block hl => exact ⟨_, _, rfl, by rw [hl]; decide⟩
  | call hcall =>
    obtain ⟨t, us, rfl, ht⟩ := hcall.expression.first
    exact ⟨t, _, rfl, List.mem_append_left _ ht⟩
  | assign ht => exact ⟨_, _, rfl, by rw [ht]; decide⟩
  | expr he =>
    obtain ⟨t, us, rfl, ht⟩ := he.first
    exact ⟨t, _, rfl, List.mem_append_left _ ht⟩

theorem Top.first {ts : List Token} {i : Item} (h : Top ts i) :
    ∃ t us, ts = t :: us ∧ t.kind ∈ Token.Kind.kwFunc :: statementStarts := by
  cases h with
  | definition hf =>
    obtain ⟨hk, _⟩ := hf
    exact ⟨_, _, rfl, by rw [hk]; decide⟩
  | statement hs =>
    obtain ⟨t, us, rfl, ht⟩ := hs.first
    exact ⟨t, us, rfl, List.mem_cons_of_mem _ ht⟩

/-! ## End markers -/

/-- No end marker stands in a phrase. -/
def Unended (ts : List Token) : Prop := ∀ t ∈ ts, t.kind ≠ .eof

theorem unended_nil : Unended [] := by simp [Unended]

theorem unended_cons {t : Token} {ts : List Token} :
    Unended (t :: ts) ↔ t.kind ≠ .eof ∧ Unended ts := List.forall_mem_cons

theorem unended_append {ts us : List Token} : Unended (ts ++ us) ↔ Unended ts ∧ Unended us :=
  List.forall_mem_append

theorem unended_flatten {ps : List (List Token)} : Unended ps.flatten ↔ ∀ p ∈ ps, Unended p := by
  induction ps with
  | nil => simp [Unended]
  | cons p ps ih => rw [List.flatten_cons, unended_append, ih, List.forall_mem_cons]

theorem ne_eof_of_kind {t : Token} {k : Token.Kind} (h : t.kind = k) (hk : k ≠ .eof := by decide) :
    t.kind ≠ .eof := h ▸ hk

theorem AfterCommas.unended {ps : List (List Token)} {ts : List Token} (h : AfterCommas ps ts)
    (hps : ∀ p ∈ ps, Unended p) : Unended ts := by
  induction h with
  | nil => exact unended_nil
  | cons hcomma _ ih =>
    obtain ⟨hp, hps⟩ := List.forall_mem_cons.mp hps
    exact unended_append.mpr ⟨unended_cons.mpr ⟨ne_eof_of_kind hcomma, hp⟩, ih hps⟩

theorem Separated.unended {ps : List (List Token)} {ts : List Token} (h : Separated ps ts)
    (hps : ∀ p ∈ ps, Unended p) : Unended ts := by
  cases h with
  | nil => exact unended_nil
  | cons h =>
    obtain ⟨hp, hps⟩ := List.forall_mem_cons.mp hps
    exact unended_append.mpr ⟨hp, h.unended hps⟩

theorem Parentheses.unended {l r : Token} {ts : List Token} (h : Parentheses l r)
    (hts : Unended ts) : Unended (l :: ts ++ [r]) := by
  refine unended_append.mpr ⟨unended_cons.mpr ⟨ne_eof_of_kind h.1, hts⟩, ?_⟩
  exact unended_cons.mpr ⟨ne_eof_of_kind h.2, unended_nil⟩

theorem Expression.unended {o : Option Level} {ts : List Token} {e : Expr}
    (h : Expression o ts e) : Unended ts := by
  induction h with
  | number ht => exact unended_cons.mpr ⟨ne_eof_of_kind ht, unended_nil⟩
  | name ht => exact unended_cons.mpr ⟨ne_eof_of_kind ht, unended_nil⟩
  | call ht hp hsep _ ih =>
    refine unended_cons.mpr ⟨?_, hp.unended (hsep.unended ?_)⟩
    · rcases ht with ht | ht
      · exact ne_eof_of_kind ht
      · exact ne_eof_of_kind ht
    · exact List.forall_mem_map.mpr ih
  | parens hp _ ih => exact hp.unended ih
  | minus ht _ ih => exact unended_cons.mpr ⟨ne_eof_of_kind ht, ih⟩
  | operand _ ih => exact ih
  | @binary l _ _ op _ _ _ hop _ iha ihb =>
    have hne : op.kind ≠ .eof := by
      intro heof
      rw [heof] at hop
      cases l <;> exact absurd hop (by decide)
    exact unended_append.mpr ⟨iha, unended_cons.mpr ⟨hne, ihb⟩⟩

theorem Head.unended {k : Token.Kind} {ts : List Token} {c : Expr} (h : Head k ts c)
    (hk : k ≠ .eof) : Unended ts := by
  obtain ⟨ht, hp, hc⟩ := h
  exact unended_cons.mpr ⟨ne_eof_of_kind ht hk, hp.unended hc.unended⟩

theorem Statement.unended {ts : List Token} {s : Stmt} (h : Statement ts s) : Unended ts := by
  have hone : ∀ {t : Token} {k : Token.Kind}, t.kind = k → k ≠ .eof → Unended [t] :=
    fun ht hk => unended_cons.mpr ⟨ne_eof_of_kind ht hk, unended_nil⟩
  induction h with
  | retNone hk hs => exact unended_cons.mpr ⟨ne_eof_of_kind hk, hone hs (by decide)⟩
  | ret hk he hs =>
    refine unended_append.mpr ⟨?_, hone hs (by decide)⟩
    exact unended_cons.mpr ⟨ne_eof_of_kind hk, he.unended⟩
  | ifThen hhead _ ih => exact unended_append.mpr ⟨hhead.unended (by decide), ih⟩
  | ifElse hhead _ _ hk _ ihyes ihno =>
    refine unended_append.mpr ⟨unended_append.mpr ⟨hhead.unended (by decide), ihyes⟩, ?_⟩
    exact unended_cons.mpr ⟨ne_eof_of_kind hk, ihno⟩
  | loop hhead _ ih => exact unended_append.mpr ⟨hhead.unended (by decide), ih⟩
  | block hl hr _ ih =>
    refine unended_append.mpr ⟨unended_cons.mpr ⟨ne_eof_of_kind hl, ?_⟩, hone hr (by decide)⟩
    exact unended_flatten.mpr (List.forall_mem_map.mpr ih)
  | call hcall hs => exact unended_append.mpr ⟨hcall.expression.unended, hone hs (by decide)⟩
  | assign ht heq he hs =>
    refine unended_append.mpr ⟨?_, hone hs (by decide)⟩
    exact unended_cons.mpr ⟨ne_eof_of_kind ht, unended_cons.mpr ⟨ne_eof_of_kind heq, he.unended⟩⟩
  | expr he hs _ => exact unended_append.mpr ⟨he.unended, hone hs (by decide)⟩

theorem Top.unended {ts : List Token} {i : Item} (h : Top ts i) : Unended ts := by
  cases h with
  | statement hs => exact hs.unended
  | definition hf =>
    obtain ⟨hk, hname, hp, hparams, hsep, hbody⟩ := hf
    have hrow := hsep.unended (List.forall_mem_map.mpr fun p hp' =>
      unended_cons.mpr ⟨ne_eof_of_kind (hparams p hp'), unended_nil⟩)
    have hparens := hp.unended hrow
    rw [unended_append] at hparens
    refine unended_cons.mpr ⟨ne_eof_of_kind hk, unended_cons.mpr ⟨ne_eof_of_kind hname, ?_⟩⟩
    refine unended_append.mpr ⟨hparens.1, unended_cons.mpr ⟨ne_eof_of_kind hp.2, hbody.unended⟩⟩

/-- The end marker of a program is the only one in it. -/
theorem Program.unended {ts : List Token} {stop : Token} {p : MiniLang.Program}
    (h : Program (ts ++ [stop]) p) : Unended ts := by
  generalize htokens : ts ++ [stop] = tokens at h
  obtain ⟨hitems, _⟩ := h
  rw [(List.append_inj' htokens rfl).1]
  exact unended_flatten.mpr (List.forall_mem_map.mpr fun i hi => (hitems i hi).unended)

end Grammar

end MiniLang
