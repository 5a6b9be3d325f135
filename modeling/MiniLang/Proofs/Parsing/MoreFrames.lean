/-
  Frames only stop the parser.

  Two readers of one thing, one of them with more frames, go the same way as long as the frames of
  the other last; and where those are used up, nothing is read at all.

  1. **Comparison** — `Parse.Extends p q`: from every stream `q` does what `p` does, or `p` runs out
     of frames.  It composes along `>>=`, so the repetitions have it from their items.
  2. **The parser** — one lemma for each of its functions, from those that it calls with fewer
     frames, tied together by induction on the smaller number of frames.
  3. **Programs** — what tokens come to, and so what a text is compiled to, is the same with more
     frames.
-/
import MiniLang.Compilation
import MiniLang.Proofs.Parsing.Sound

namespace MiniLang.Parse

variable {α β : Type}

/-! ## Comparison -/

/-- The second reader is the first one with no fewer frames. -/
def Extends (p q : Parse α) : Prop := ∀ s, p.run s = .error .tooDeep ∨ q.run s = p.run s

namespace Extends

/-- A reader that does not look at the frames. -/
theorem refl (p : Parse α) : Extends p p := fun _ => .inr rfl

/-- Without frames nothing is read. -/
theorem tooDeep (q : Parse α) : Extends Parse.tooDeep q := fun _ => .inl rfl

theorem bind {p q : Parse α} {f g : α → Parse β} (hp : Extends p q) (hf : ∀ a, Extends (f a) (g a)) :
    Extends (p >>= f) (q >>= g) := by
  intro s
  rw [StateT.run_bind, StateT.run_bind]
  rcases hp s with hdeep | hsame
  · rw [hdeep]
    exact .inl rfl
  · rw [hsame]
    cases p.run s with
    | error halt => exact .inr rfl
    | ok r => exact hf r.1 r.2

/-- The same is read first, and then what extends. -/
theorem after (p : Parse α) {f g : α → Parse β} (hf : ∀ a, Extends (f a) (g a)) :
    Extends (p >>= f) (p >>= g) := bind (refl p) hf

/-- The same is done with what is read. -/
theorem before {p q : Parse α} (hp : Extends p q) (f : α → Parse β) :
    Extends (p >>= f) (q >>= f) := bind hp fun a => refl (f a)

/-! ## Repetition -/

theorem manyUntil {p q : Parse α} (ends : Token.Kind → Bool) (hp : Extends p q) :
    ∀ n, Extends (Parse.manyUntil ends p n) (Parse.manyUntil ends q n) := by
  intro n
  induction n with
  | zero => exact refl _
  | succ n ih =>
    rw [Parse.manyUntil, Parse.manyUntil]
    apply after Parse.front
    intro token
    cases ends token.kind with
    | true => exact refl _
    | false => exact bind hp fun _ => before ih _

theorem manyAfterComma {p q : Parse α} (hp : Extends p q) :
    ∀ n, Extends (Parse.manyAfterComma p n) (Parse.manyAfterComma q n) := by
  intro n
  induction n with
  | zero => exact refl _
  | succ n ih =>
    rw [Parse.manyAfterComma, Parse.manyAfterComma]
    apply after (Parse.accept .comma)
    intro found
    cases found with
    | true => exact bind hp fun _ => before ih _
    | false => exact refl _

theorem parenthesised {p q : Parse α} (hp : Extends p q) :
    Extends (Parse.parenthesised p) (Parse.parenthesised q) := by
  apply after (Parse.expect .lparen)
  intro _
  apply after (Parse.check .rparen)
  intro closes
  cases closes with
  | true => exact refl _
  | false =>
    apply bind hp
    intro first
    apply after get
    intro s
    exact before (manyAfterComma hp s.size) _

theorem chain {p q : Parse Expr} (ops : Token.Kind → Bool) (hp : Extends p q) :
    ∀ n left, Extends (Parse.chain ops p n left) (Parse.chain ops q n left) := by
  intro n
  induction n with
  | zero => exact fun left => refl _
  | succ n ih =>
    intro left
    rw [Parse.chain, Parse.chain]
    apply after Parse.front
    intro token
    cases ops token.kind with
    | false => exact refl _
    | true =>
      apply after Parse.pop
      intro _
      apply bind hp
      intro right
      exact ih _

end Extends

/-! ## Expressions -/

/-- The readers of expressions with `d'` frames extend those with `d`. -/
structure ExpressionsExtend (d d' : Nat) : Prop where
  expression : Extends (expression d) (expression d')
  ofLevel : ∀ o, Extends (ofLevel d o) (ofLevel d' o)
  primary : Extends (primary d) (primary d')
  callOf : ∀ t : Token, Extends (callOf d t) (callOf d' t)

variable {d d' : Nat}

theorem level_extends (l : Level) (h : Extends (ofLevel d l.tighter?) (ofLevel d' l.tighter?)) :
    Extends (level (d + 2) l) (level (d' + 2) l) := by
  rw [level_succ, level_succ]
  apply Extends.bind h
  intro first
  apply Extends.after get
  intro s
  exact .chain l.holds h s.size first

theorem unary_extends (h : ExpressionsExtend d d') : Extends (unary (d + 1)) (unary (d' + 1)) := by
  rw [unary, unary]
  apply Extends.after front
  intro sign
  apply Extends.after (accept .minus)
  intro found
  cases found with
  | false => exact h.primary
  | true => exact .before (h.ofLevel none) _

theorem callOf_extends (h : ExpressionsExtend d d') (t : Token) :
    Extends (callOf (d + 1) t) (callOf (d' + 1) t) := by
  rw [callOf, callOf]
  exact .before (.parenthesised h.expression) _

theorem primary_extends (h : ExpressionsExtend d d') :
    Extends (primary (d + 1)) (primary (d' + 1)) := by
  rw [primary, primary]
  apply Extends.after front
  intro token
  cases token.kind with
  | name | kwPrint =>
    apply Extends.after pop
    intro _
    apply Extends.after (check .lparen)
    intro called
    cases called with
    | true => exact h.callOf token
    | false => exact .refl _
  | lparen =>
    apply Extends.after pop
    intro _
    exact .before h.expression _
  | _ => exact .refl _

theorem expressions_extend : ∀ {d d' : Nat}, d ≤ d' → ExpressionsExtend d d' := by
  intro d
  induction d using Nat.strongRecOn with
  | ind d ih =>
    -- a level hands on two frames less, so the induction looks two steps back
    intro d' hle
    cases d with
    | zero =>
      refine ⟨.tooDeep _, fun o => ?_, .tooDeep _, fun _ => .tooDeep _⟩
      rcases o with _ | l
      · exact .tooDeep _
      · cases l <;> exact .tooDeep _
    | succ d =>
      obtain ⟨d', rfl⟩ : ∃ k, d' = k + 1 := ⟨d' - 1, by omega⟩
      have h := ih d (Nat.lt_succ_self d) (Nat.le_of_succ_le_succ hle)
      refine ⟨h.ofLevel (some .equality), fun o => ?_, primary_extends h, callOf_extends h⟩
      rcases o with _ | l
      · exact unary_extends h
      · cases d with
        | zero => cases l <;> exact .tooDeep _
        | succ d =>
          obtain ⟨d', rfl⟩ : ∃ k, d' = k + 1 := ⟨d' - 1, by omega⟩
          exact level_extends l ((ih d (by omega) (by omega)).ofLevel _)

/-! ## Statements -/

/-- The readers of statements with `d'` frames extend those with `d`. -/
structure StatementsExtend (d d' : Nat) : Prop where
  statement : Extends (statement d) (statement d')
  block : Extends (block d) (block d')

theorem block_extends (h : StatementsExtend d d') : Extends (block (d + 1)) (block (d' + 1)) := by
  rw [block, block]
  apply Extends.after (expect .lbrace)
  intro lbrace
  apply Extends.after get
  intro s
  exact .before (.manyUntil _ h.statement s.size) _

/-- A condition in parentheses, and what follows it. -/
theorem condition_extends (hle : d ≤ d') {f g : Expr → Parse α} (hf : ∀ c, Extends (f c) (g c)) :
    Extends
      (do let _ ← expect .lparen
          let c ← expression d
          let _ ← expect .rparen
          f c)
      (do let _ ← expect .lparen
          let c ← expression d'
          let _ ← expect .rparen
          g c) := by
  apply Extends.after (expect .lparen)
  intro _
  apply Extends.bind (expressions_extend hle).expression
  intro c
  exact .after (expect .rparen) fun _ => hf c

theorem statement_extends (hle : d ≤ d') (h : StatementsExtend d d') :
    Extends (statement (d + 1)) (statement (d' + 1)) := by
  have hexpr := (expressions_extend hle).expression
  have hcall := (expressions_extend hle).callOf
  rw [statement, statement]
  apply Extends.after front
  intro token
  cases token.kind with
  | kwReturn =>
    apply Extends.after pop
    intro _
    apply Extends.after (check .semi)
    intro bare
    cases bare with
    | true => exact .refl _
    | false => exact .before hexpr _
  | kwIf =>
    apply Extends.after pop
    intro _
    apply condition_extends hle
    intro cond
    apply Extends.bind h.statement
    intro yes
    apply Extends.after (accept .kwElse)
    intro found
    cases found with
    | true => exact .before h.statement _
    | false => exact .refl _
  | kwWhile =>
    apply Extends.after pop
    intro _
    apply condition_extends hle
    intro cond
    exact .before h.statement _
  | lbrace => exact h.block
  | kwPrint =>
    apply Extends.after pop
    intro _
    exact .before (hcall token) _
  | name =>
    apply Extends.after second
    intro next
    cases next.kind with
    | assign =>
      apply Extends.after pop
      intro _
      apply Extends.after pop
      intro _
      exact .before hexpr _
    | lparen =>
      apply Extends.after pop
      intro _
      exact .before (hcall token) _
    | _ => exact .before hexpr _
  | _ => exact .before hexpr _

theorem statements_extend : ∀ {d d' : Nat}, d ≤ d' → StatementsExtend d d' := by
  intro d
  induction d with
  | zero => exact fun _ => ⟨.tooDeep _, .tooDeep _⟩
  | succ d ih =>
    intro d' hle
    obtain ⟨d', rfl⟩ : ∃ k, d' = k + 1 := ⟨d' - 1, by omega⟩
    have hle' : d ≤ d' := Nat.le_of_succ_le_succ hle
    exact ⟨statement_extends hle' (ih hle'), block_extends (ih hle')⟩

/-! ## Programs -/

theorem definition_extends (hle : d ≤ d') : Extends (definition d) (definition d') := by
  cases d with
  | zero => exact .tooDeep _
  | succ d =>
    obtain ⟨d', rfl⟩ : ∃ k, d' = k + 1 := ⟨d' - 1, by omega⟩
    rw [definition, definition]
    apply Extends.after (expect .kwFunc)
    intro start
    apply Extends.after (expect .name)
    intro name
    apply Extends.after (parenthesised (expect .name))
    intro params
    exact .before (statements_extend (by omega)).block _

theorem item_extends (hle : d ≤ d') : Extends (item d) (item d') := by
  apply Extends.after (check .kwFunc)
  intro found
  cases found with
  | true => exact .before (definition_extends hle) _
  | false => exact .before (statements_extend hle).statement _

theorem program_extends (hle : d ≤ d') : Extends (program d) (program d') := by
  apply Extends.after front
  intro start
  apply Extends.after get
  intro s
  exact .before (.manyUntil _ (item_extends hle) s.size) _

end MiniLang.Parse

namespace MiniLang

variable {frames frames' : Nat}

/-- Tokens that can be parsed, or not, within some frames come to the same with more of them. -/
theorem ofTokens_of_more_frames (hle : frames ≤ frames') {tokens : List Token}
    (h : Program.ofTokens frames tokens ≠ .error .tooDeep) :
    Program.ofTokens frames' tokens = Program.ofTokens frames tokens := by
  unfold Program.ofTokens at h ⊢
  rcases Parse.program_extends hle (.ofTokens tokens) with hdeep | hsame
  · rw [hdeep] at h
    exact absurd rfl h
  · rw [hsame]

/-- A text that is compiled within some frames, and not found to be nested too deeply, is compiled
    to the same with more of them. -/
theorem Compilation.ofSource_of_more_frames (hle : frames ≤ frames') {graphs : Bool}
    {source : String} {c : Compilation} (hc : ofSource frames graphs source = .ok c)
    (herror : c.error ≠ some .nesting) : ofSource frames' graphs source = .ok c := by
  unfold ofSource at hc ⊢
  cases hsource : Token.ofSource source with
  | error error =>
    rw [hsource] at hc
    exact hc
  | ok tokens =>
    rw [hsource] at hc
    have hdeep : Program.ofTokens frames tokens ≠ .error .tooDeep := by
      intro hdeep
      simp only [hdeep] at hc
      cases hc
      exact herror rfl
    dsimp only at hc ⊢
    rw [ofTokens_of_more_frames hle hdeep]
    exact hc

end MiniLang
