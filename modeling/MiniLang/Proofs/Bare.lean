/-
  Trees and tokens without places.

  Two programs that differ only in their layout have trees that differ only in their spans.
  `bare` puts one and the same span everywhere, so that "equal up to places" is an equation
  between bare trees: `p.bare = q.bare`.
-/
import MiniLang.Program

namespace MiniLang

/-- The span of everything whose place does not matter. -/
def Span.nowhere : Span := .empty .origin

/-- A token without its place. -/
def Token.bare (t : Token) : Token := { t with span := .nowhere }

/-- An expression without places. -/
def Expr.bare : Expr → Expr
  | .lit _ v => .lit .nowhere v
  | .var _ name => .var .nowhere name
  | .binary _ left op right => .binary .nowhere left.bare op right.bare
  | .call _ name args => .call .nowhere name (args.map Expr.bare)
  | .stray _ label => .stray .nowhere label

/-- A statement without places. -/
def Stmt.bare : Stmt → Stmt
  | .block _ body => .block .nowhere (body.map Stmt.bare)
  | .expr _ e => .expr .nowhere e.bare
  | .assign _ name value => .assign .nowhere name value.bare
  | .ifElse _ cond yes none => .ifElse .nowhere cond.bare yes.bare none
  | .ifElse _ cond yes (some no) => .ifElse .nowhere cond.bare yes.bare (some no.bare)
  | .loop _ cond body => .loop .nowhere cond.bare body.bare
  | .ret _ value => .ret .nowhere (value.map Expr.bare)
  | .stray _ label => .stray .nowhere label

/-- A definition without places. -/
def FunctionDef.bare (f : FunctionDef) : FunctionDef := ⟨.nowhere, f.name, f.params, f.body.bare⟩

/-- A program without places. -/
def Program.bare (p : Program) : Program :=
  ⟨.nowhere, p.functions.map FunctionDef.bare, p.body.bare⟩

section

variable (s : Span)

@[simp] theorem Expr.bare_lit (v : Int) : (Expr.lit s v).bare = .lit .nowhere v := by rw [Expr.bare]

@[simp] theorem Expr.bare_var (name : String) : (Expr.var s name).bare = .var .nowhere name := by
  rw [Expr.bare]

@[simp] theorem Expr.bare_binary (l : Expr) (op : Token.Kind) (r : Expr) :
    (Expr.binary s l op r).bare = .binary .nowhere l.bare op r.bare := by rw [Expr.bare]

@[simp] theorem Expr.bare_call (name : String) (args : List Expr) :
    (Expr.call s name args).bare = .call .nowhere name (args.map Expr.bare) := by rw [Expr.bare]

@[simp] theorem Expr.bare_stray (label : String) :
    (Expr.stray s label).bare = .stray .nowhere label := by rw [Expr.bare]

@[simp] theorem Stmt.bare_block (body : List Stmt) :
    (Stmt.block s body).bare = .block .nowhere (body.map Stmt.bare) := by rw [Stmt.bare]

@[simp] theorem Stmt.bare_expr (e : Expr) : (Stmt.expr s e).bare = .expr .nowhere e.bare := by
  rw [Stmt.bare]

@[simp] theorem Stmt.bare_assign (name : String) (e : Expr) :
    (Stmt.assign s name e).bare = .assign .nowhere name e.bare := by rw [Stmt.bare]

@[simp] theorem Stmt.bare_ifElse (c : Expr) (yes : Stmt) (no : Option Stmt) :
    (Stmt.ifElse s c yes no).bare = .ifElse .nowhere c.bare yes.bare (no.map Stmt.bare) := by
  cases no <;> rw [Stmt.bare] <;> rfl

@[simp] theorem Stmt.bare_loop (c : Expr) (body : Stmt) :
    (Stmt.loop s c body).bare = .loop .nowhere c.bare body.bare := by rw [Stmt.bare]

@[simp] theorem Stmt.bare_ret (value : Option Expr) :
    (Stmt.ret s value).bare = .ret .nowhere (value.map Expr.bare) := by rw [Stmt.bare]

@[simp] theorem Stmt.bare_stray (label : String) :
    (Stmt.stray s label).bare = .stray .nowhere label := by rw [Stmt.bare]

end

@[simp] theorem Token.bare_kind (t : Token) : t.bare.kind = t.kind := rfl
@[simp] theorem Token.bare_lexeme (t : Token) : t.bare.lexeme = t.lexeme := rfl
@[simp] theorem Token.bare_value (t : Token) : t.bare.value = t.value := rfl

end MiniLang
