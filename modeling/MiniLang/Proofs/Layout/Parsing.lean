/-
  Parsing in another layout.

  A reader looks at the kinds, the lexemes and the values of tokens, and at the number of those
  that are queued.  It makes spans from the spans of tokens, by going from one to another.  So in
  another layout of the same tokens it goes the same way, and what it reads, or the token that it
  stops at, is the same one in the new layout.

  1. **Readers** — `Parse.Placed l f p q`: from a stream in the layout `l`, `q` does what `p` does
     from the stream itself, with the value moved by `f`.  It composes along `>>=`, and each
     primitive and each repetition has a lemma.
  2. **The parser** — one lemma for each of its functions, tied together by induction on the
     frames, which are the same in both layouts.
-/
import MiniLang.Proofs.Layout.Placed
import MiniLang.Proofs.Parsing.Sound

namespace MiniLang.Parse

variable {l : Layout} {α β : Type}

/-! ## Readers -/

/-- How a reader ends in another layout, where `f` moves the values. -/
def placedResult (l : Layout) (f : α → α) :
    Except ParseHalt (α × TokenStream) → Except ParseHalt (α × TokenStream)
  | .ok (a, s) => .ok (f a, s.placed l)
  | .error halt => .error (halt.placed l)

/-- In the layout `l` the second reader does what the first one does. -/
def Placed (l : Layout) (f : α → α) (p q : Parse α) : Prop :=
  ∀ s, q.run (s.placed l) = placedResult l f (p.run s)

namespace Placed

theorem bind {f : α → α} {g : β → β} {p q : Parse α} {k k' : α → Parse β} (hp : Placed l f p q)
    (hk : ∀ a, Placed l g (k a) (k' (f a))) : Placed l g (p >>= k) (q >>= k') := by
  intro s
  rw [StateT.run_bind, StateT.run_bind, hp s]
  cases p.run s with
  | error halt => rfl
  | ok r => exact hk r.1 r.2

theorem pure {f : α → α} {a b : α} (h : f a = b) : Placed l f (pure a) (pure b) := by
  intro s
  rw [← h]
  rfl

theorem fail {f : α → α} {e e' : ParseError} (h : e.placed l = e') :
    Placed l f (Parse.fail e) (Parse.fail e') := by
  intro s
  rw [← h]
  rfl

theorem tooDeep {f : α → α} : Placed l f Parse.tooDeep Parse.tooDeep := fun _ => rfl

theorem get : Placed l (TokenStream.placed l) (MonadState.get : Parse TokenStream) MonadState.get :=
  fun _ => rfl

theorem front : Placed l (Token.placed l) Parse.front Parse.front := by
  intro s
  show Except.ok ((s.placed l).front, s.placed l) = _
  rw [TokenStream.placed_front]
  rfl

theorem second : Placed l (Token.placed l) Parse.second Parse.second := by
  intro s
  show Except.ok ((s.placed l).ahead 1, s.placed l) = _
  rw [TokenStream.placed_ahead]
  rfl

theorem pop : Placed l (Token.placed l) Parse.pop Parse.pop := by
  intro s
  show Except.ok ((s.placed l).front, (s.placed l).pop.2) = _
  rw [TokenStream.placed_front, TokenStream.placed_pop]
  rfl

theorem check (kind : Token.Kind) : Placed l id (Parse.check kind) (Parse.check kind) :=
  bind front fun _ => pure rfl

theorem accept (kind : Token.Kind) : Placed l id (Parse.accept kind) (Parse.accept kind) := by
  apply bind (check kind)
  intro found
  cases found with
  | true => exact bind pop fun _ => pure rfl
  | false => exact pure rfl

theorem expect (kind : Token.Kind) :
    Placed l (Token.placed l) (Parse.expect kind) (Parse.expect kind) := by
  apply bind front
  intro token
  rw [Token.placed_kind]
  by_cases h : token.kind = kind
  · rw [if_pos h, if_pos h]
    exact pop
  · rw [if_neg h, if_neg h]
    exact fail rfl

/-! ## Repetition -/

theorem manyUntil {f : α → α} {p q : Parse α} (ends : Token.Kind → Bool) (hp : Placed l f p q) :
    ∀ n, Placed l (List.map f) (Parse.manyUntil ends p n) (Parse.manyUntil ends q n) := by
  intro n
  induction n with
  | zero => exact pure rfl
  | succ n ih =>
    rw [Parse.manyUntil, Parse.manyUntil]
    apply bind front
    intro token
    rw [Token.placed_kind]
    cases ends token.kind with
    | true => exact pure rfl
    | false => exact bind hp fun _ => bind ih fun _ => pure rfl

theorem manyAfterComma {f : α → α} {p q : Parse α} (hp : Placed l f p q) :
    ∀ n, Placed l (List.map f) (Parse.manyAfterComma p n) (Parse.manyAfterComma q n) := by
  intro n
  induction n with
  | zero => exact pure rfl
  | succ n ih =>
    rw [Parse.manyAfterComma, Parse.manyAfterComma]
    apply bind (accept .comma)
    intro found
    cases found with
    | true => exact bind hp fun _ => bind ih fun _ => pure rfl
    | false => exact pure rfl

theorem parenthesised {f : α → α} {p q : Parse α} (hp : Placed l f p q) :
    Placed l (Prod.map (List.map f) (Token.placed l)) (Parse.parenthesised p)
      (Parse.parenthesised q) := by
  apply bind (expect .lparen)
  intro _
  apply bind (check .rparen)
  intro closes
  cases closes with
  | true => exact bind (expect .rparen) fun _ => pure rfl
  | false =>
    apply bind hp
    intro first
    apply bind get
    intro s
    rw [TokenStream.placed_size]
    apply bind (manyAfterComma hp s.size)
    intro rest
    exact bind (expect .rparen) fun _ => pure rfl

theorem chain {p q : Parse Expr} (ops : Token.Kind → Bool) (hp : Placed l (Expr.placed l) p q) :
    ∀ n left, Placed l (Expr.placed l) (Parse.chain ops p n left)
      (Parse.chain ops q n (left.placed l)) := by
  intro n
  induction n with
  | zero => exact fun left => pure rfl
  | succ n ih =>
    intro left
    rw [Parse.chain, Parse.chain]
    apply bind front
    intro token
    rw [Token.placed_kind]
    cases ops token.kind with
    | false => exact pure rfl
    | true =>
      apply bind pop
      intro _
      apply bind hp
      intro right
      have hbinary := ih (.binary (left.span.through right.span) left token.kind right)
      rw [Expr.placed, Span.placed_through, ← Expr.placed_span, ← Expr.placed_span] at hbinary
      exact hbinary

end Placed

/-! ## Expressions -/

/-- With `d` frames the readers of expressions go the same way in every layout. -/
structure ExpressionsPlaced (l : Layout) (d : Nat) : Prop where
  expression : Placed l (Expr.placed l) (expression d) (expression d)
  ofLevel : ∀ o, Placed l (Expr.placed l) (ofLevel d o) (ofLevel d o)
  primary : Placed l (Expr.placed l) (primary d) (primary d)
  callOf : ∀ t : Token, Placed l (Expr.placed l) (callOf d t) (callOf d (t.placed l))

variable {d : Nat}

theorem level_placed (lv : Level)
    (h : Placed l (Expr.placed l) (ofLevel d lv.tighter?) (ofLevel d lv.tighter?)) :
    Placed l (Expr.placed l) (level (d + 2) lv) (level (d + 2) lv) := by
  rw [level_succ]
  apply Placed.bind h
  intro first
  apply Placed.bind .get
  intro s
  rw [TokenStream.placed_size]
  exact .chain lv.holds h s.size first

theorem unary_placed (h : ExpressionsPlaced l d) :
    Placed l (Expr.placed l) (unary (d + 1)) (unary (d + 1)) := by
  rw [unary]
  apply Placed.bind .front
  intro sign
  apply Placed.bind (.accept .minus)
  intro found
  cases found with
  | false => exact h.primary
  | true =>
    apply Placed.bind (h.ofLevel none)
    intro operand
    apply Placed.pure
    rw [Expr.placed, Expr.placed, Span.placed_through, ← Expr.placed_span]
    rfl

theorem callOf_placed (h : ExpressionsPlaced l d) (t : Token) :
    Placed l (Expr.placed l) (callOf (d + 1) t) (callOf (d + 1) (t.placed l)) := by
  rw [callOf, callOf]
  apply Placed.bind (.parenthesised h.expression)
  intro r
  apply Placed.pure
  rw [Expr.placed]
  rfl

theorem primary_placed (h : ExpressionsPlaced l d) :
    Placed l (Expr.placed l) (primary (d + 1)) (primary (d + 1)) := by
  rw [primary]
  apply Placed.bind .front
  intro token
  rw [Token.placed_kind]
  cases token.kind with
  | int =>
    apply Placed.bind .pop
    intro _
    apply Placed.pure
    rw [Expr.placed]
    rfl
  | name =>
    apply Placed.bind .pop
    intro _
    apply Placed.bind (.check .lparen)
    intro called
    cases called with
    | true => exact h.callOf token
    | false =>
      apply Placed.pure
      rw [Expr.placed]
      rfl
  | kwPrint =>
    apply Placed.bind .pop
    intro _
    apply Placed.bind (.check .lparen)
    intro called
    cases called with
    | true => exact h.callOf token
    | false => exact .bind .front fun _ => .fail rfl
  | lparen =>
    apply Placed.bind .pop
    intro _
    apply Placed.bind h.expression
    intro inner
    exact .bind (.expect .rparen) fun _ => .pure rfl
  | _ => exact .fail rfl

theorem expressions_placed (l : Layout) : ∀ d, ExpressionsPlaced l d := by
  intro d
  induction d using Nat.strongRecOn with
  | ind d ih =>
    -- a level hands on two frames less, so the induction looks two steps back
    cases d with
    | zero =>
      refine ⟨.tooDeep, fun o => ?_, .tooDeep, fun _ => .tooDeep⟩
      rcases o with _ | lv
      · exact .tooDeep
      · cases lv <;> exact .tooDeep
    | succ d =>
      have h := ih d (by omega)
      refine ⟨h.ofLevel (some .equality), fun o => ?_, primary_placed h, callOf_placed h⟩
      rcases o with _ | lv
      · exact unary_placed h
      · cases d with
        | zero => cases lv <;> exact .tooDeep
        | succ d => exact level_placed lv ((ih d (by omega)).ofLevel _)

/-! ## Statements -/

theorem closed_placed (e : Expr) (start : Span) :
    Placed l (Stmt.placed l) (closed e start) (closed (e.placed l) (start.placed l)) := by
  apply Placed.bind (.expect .semi)
  intro semi
  apply Placed.pure
  rw [Stmt.placed]
  rfl

/-- With `d` frames the readers of statements go the same way in every layout. -/
structure StatementsPlaced (l : Layout) (d : Nat) : Prop where
  statement : Placed l (Stmt.placed l) (statement d) (statement d)
  block : Placed l (Stmt.placed l) (block d) (block d)

theorem block_placed (h : StatementsPlaced l d) :
    Placed l (Stmt.placed l) (block (d + 1)) (block (d + 1)) := by
  rw [block]
  apply Placed.bind (.expect .lbrace)
  intro lbrace
  apply Placed.bind .get
  intro s
  rw [TokenStream.placed_size]
  apply Placed.bind (.manyUntil _ h.statement s.size)
  intro body
  apply Placed.bind (.expect .rbrace)
  intro rbrace
  apply Placed.pure
  rw [Stmt.placed]
  rfl

/-- A condition in parentheses, and what follows it. -/
theorem condition_placed {f : α → α} {k k' : Expr → Parse α}
    (hk : ∀ c, Placed l f (k c) (k' (c.placed l))) :
    Placed l f
      (do let _ ← expect .lparen
          let c ← expression d
          let _ ← expect .rparen
          k c)
      (do let _ ← expect .lparen
          let c ← expression d
          let _ ← expect .rparen
          k' c) := by
  apply Placed.bind (.expect .lparen)
  intro _
  apply Placed.bind (expressions_placed l d).expression
  intro c
  exact .bind (.expect .rparen) fun _ => hk c

theorem statement_placed (h : StatementsPlaced l d) :
    Placed l (Stmt.placed l) (statement (d + 1)) (statement (d + 1)) := by
  have hexpr := (expressions_placed l d).expression
  have hcall := (expressions_placed l d).callOf
  have hgeneral : Placed l (Stmt.placed l) (do let e ← expression d; closed e e.span)
      (do let e ← expression d; closed e e.span) := by
    apply Placed.bind hexpr
    intro e
    rw [Expr.placed_span]
    exact closed_placed e e.span
  rw [statement]
  apply Placed.bind .front
  intro token
  rw [Token.placed_kind]
  cases token.kind with
  | kwReturn =>
    apply Placed.bind .pop
    intro _
    apply Placed.bind (.check .semi)
    intro bare
    cases bare with
    | true =>
      apply Placed.bind (.expect .semi)
      intro semi
      apply Placed.pure
      rw [Stmt.placed]
      rfl
    | false =>
      apply Placed.bind hexpr
      intro value
      apply Placed.bind (.expect .semi)
      intro semi
      apply Placed.pure
      rw [Stmt.placed]
      rfl
  | kwIf =>
    apply Placed.bind .pop
    intro _
    apply condition_placed
    intro cond
    apply Placed.bind h.statement
    intro yes
    apply Placed.bind (.accept .kwElse)
    intro found
    cases found with
    | true =>
      apply Placed.bind h.statement
      intro no
      apply Placed.pure
      rw [Stmt.placed_ifElse, Span.placed_through, ← Stmt.placed_span]
      rfl
    | false =>
      apply Placed.pure
      rw [Stmt.placed_ifElse, Span.placed_through, ← Stmt.placed_span]
      rfl
  | kwWhile =>
    apply Placed.bind .pop
    intro _
    apply condition_placed
    intro cond
    apply Placed.bind h.statement
    intro body
    apply Placed.pure
    rw [Stmt.placed, Span.placed_through, ← Stmt.placed_span]
    rfl
  | lbrace => exact h.block
  | kwPrint =>
    apply Placed.bind .pop
    intro _
    exact .bind (hcall token) fun e => closed_placed e token.span
  | name =>
    apply Placed.bind .second
    intro next
    rw [Token.placed_kind]
    cases next.kind with
    | assign =>
      apply Placed.bind .pop
      intro _
      apply Placed.bind .pop
      intro _
      apply Placed.bind hexpr
      intro value
      apply Placed.bind (.expect .semi)
      intro semi
      apply Placed.pure
      rw [Stmt.placed]
      rfl
    | lparen =>
      apply Placed.bind .pop
      intro _
      exact .bind (hcall token) fun e => closed_placed e token.span
    | _ => exact hgeneral
  | _ => exact hgeneral

theorem statements_placed (l : Layout) : ∀ d, StatementsPlaced l d := by
  intro d
  induction d with
  | zero => exact ⟨.tooDeep, .tooDeep⟩
  | succ d ih => exact ⟨statement_placed ih, block_placed ih⟩

/-! ## Programs -/

theorem definition_placed (d : Nat) :
    Placed l (FunctionDef.placed l) (definition d) (definition d) := by
  cases d with
  | zero => exact .tooDeep
  | succ d =>
    rw [definition]
    apply Placed.bind (.expect .kwFunc)
    intro start
    apply Placed.bind (.expect .name)
    intro name
    apply Placed.bind (.parenthesised (.expect .name))
    rintro ⟨params, close⟩
    apply Placed.bind (statements_placed l d).block
    intro body
    apply Placed.pure
    have hnames : (params.map (Token.placed l)).map (·.lexeme) = params.map (·.lexeme) :=
      List.map_map
    simp only [FunctionDef.placed, Span.placed_through, Stmt.placed_span, Token.placed_span,
      Token.placed_lexeme, hnames]

/-- An item in another layout. -/
def Item.placed (l : Layout) : Item → Item
  | .definition f => .definition (f.placed l)
  | .statement s => .statement (s.placed l)

theorem item_placed (d : Nat) : Placed l (Item.placed l) (item d) (item d) := by
  apply Placed.bind (.check .kwFunc)
  intro found
  cases found with
  | true => exact .bind (definition_placed d) fun _ => .pure rfl
  | false => exact .bind (statements_placed l d).statement fun _ => .pure rfl

theorem definitions_placed (items : List Item) : Item.definitions (items.map (Item.placed l)) =
    (Item.definitions items).map (FunctionDef.placed l) := by
  induction items with
  | nil => rfl
  | cons i items ih =>
    cases i with
    | definition f => exact congrArg (f.placed l :: ·) ih
    | statement s => exact ih

theorem statements_of_placed (items : List Item) : Item.statements (items.map (Item.placed l)) =
    (Item.statements items).map (Stmt.placed l) := by
  induction items with
  | nil => rfl
  | cons i items ih =>
    cases i with
    | definition f => exact ih
    | statement s => exact congrArg (s.placed l :: ·) ih

theorem program_placed (d : Nat) : Placed l (Program.placed l) (program d) (program d) := by
  apply Placed.bind .front
  intro start
  apply Placed.bind .get
  intro s
  rw [TokenStream.placed_size]
  apply Placed.bind (.manyUntil _ (item_placed d) s.size)
  intro items
  apply Placed.bind .front
  intro stop
  apply Placed.pure
  rw [Program.placed, Stmt.placed, definitions_placed, statements_of_placed, Span.placed_through]
  rfl

end MiniLang.Parse

namespace MiniLang

/-- What parsing a list of tokens comes to, in another layout. -/
def placedProgram (l : Layout) : Except ParseHalt Program → Except ParseHalt Program
  | .ok program => .ok (program.placed l)
  | .error halt => .error (halt.placed l)

/-- Tokens in another layout make the same program there, or stop the parser at the same token. -/
theorem ofTokens_placed (l : Layout) (frames : Nat) {tokens : List Token} {stop : Token}
    (hstop : stop.kind = .eof) :
    Program.ofTokens frames ((tokens ++ [stop]).map (Token.placed l)) =
      placedProgram l (Program.ofTokens frames (tokens ++ [stop])) := by
  have hrun := Parse.program_placed (l := l) frames (.ofTokens (tokens ++ [stop]))
  rw [Program.ofTokens, TokenStream.placed_ofTokens l hstop, hrun, Program.ofTokens]
  cases (Parse.program frames).run (.ofTokens (tokens ++ [stop])) with
  | error halt => rfl
  | ok r => rfl

end MiniLang
