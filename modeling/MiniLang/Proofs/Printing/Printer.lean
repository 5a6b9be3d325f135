/-
  Programs as texts.

  `Program.text` writes a program as source: the definitions first and then the statements, one
  space between two tokens, and parentheses only where the grouping of operators asks for them.

  1. **Words** — a token is written without a place: signs and keywords by their spelling, a name by
     itself, a number as the unsigned decimal that wraps to it.
  2. **Expressions** — `Expr.tokens context` writes an expression where the grammar expects one of
     the level `context`; only an operator of a looser level takes parentheses there.  A left
     operand may be of the level of the operator, a right one must be tighter.
  3. **Statements** — an expression that stands for itself, is no call and yet would begin like one,
     is put in parentheses as a whole, because a statement that begins like a call is one.
-/
import MiniLang.Program.Parser
import MiniLang.Proofs.Bare
import MiniLang.Word

namespace MiniLang

open Parse (Level)

/-! ## Words -/

/-- The text of a sign or a keyword; the other kinds have no text of their own. -/
def Token.Kind.spelling : Token.Kind → String
  | eof | int | name => ""
  | kwIf => "if"
  | kwElse => "else"
  | kwWhile => "while"
  | kwFunc => "func"
  | kwReturn => "return"
  | kwPrint => "print"
  | plus => "+"
  | minus => "-"
  | star => "*"
  | slash => "/"
  | percent => "%"
  | assign => "="
  | eq => "=="
  | neq => "!="
  | lt => "<"
  | lte => "<="
  | gt => ">"
  | gte => ">="
  | lparen => "("
  | rparen => ")"
  | lbrace => "\x7b"
  | rbrace => "\x7d"
  | comma => ","
  | semi => ";"

namespace Token

/-- A sign or a keyword. -/
def ofKind (kind : Kind) : Token := ⟨kind, kind.spelling, .nowhere, none⟩

/-- An identifier. -/
def ofName (name : String) : Token := ⟨.ofIdentifier name, name, .nowhere, none⟩

/-- A number, written as the member of its class that is not negative. -/
def ofValue (v : Int) : Token :=
  ⟨.int, (v % Word.modulus).toNat.repr, .nowhere, some v⟩

/-- Some tokens between parentheses. -/
def parenthesised (ts : List Token) : List Token := ofKind .lparen :: ts ++ [ofKind .rparen]

/-- Some rows of tokens with commas between them. -/
def commaSeparated (rows : List (List Token)) : List Token := [ofKind .comma].intercalate rows

/-- Do these tokens begin like a call? -/
def beginCall : List Token → Bool
  | t :: u :: _ => (t.kind == .name || t.kind == .kwPrint) && u.kind == .lparen
  | _ => false

end Token

/-! ## Expressions -/

/-- The level of an operator. -/
def Token.Kind.level (op : Token.Kind) : Level :=
  if Level.multiplicative.holds op then .multiplicative
  else if Level.additive.holds op then .additive
  else if Level.relational.holds op then .relational
  else .equality

/-- The place of a level among the levels, from the loosest to the tightest. -/
def Parse.Level.rank : Level → Nat
  | equality => 0
  | relational => 1
  | additive => 2
  | multiplicative => 3

/-- May an operator of the level stand without parentheses where `context` is expected? -/
def Parse.Level.fits (l : Level) : Option Level → Bool
  | none => false
  | some context => context.rank ≤ l.rank

/-- The tokens of an expression where one of the level `context` is expected. -/
def Expr.tokens : Option Level → Expr → List Token
  | _, .lit _ v => [.ofValue v]
  | _, .var _ name => [.ofName name]
  | context, .binary _ left op right =>
    let row := left.tokens (some op.level) ++ .ofKind op :: right.tokens op.level.tighter?
    if op.level.fits context then row else Token.parenthesised row
  | _, .call _ name args =>
    .ofName name :: Token.parenthesised
      (Token.commaSeparated (args.map (Expr.tokens (some .equality))))
  | _, .stray .. => []

/-- Is this a call? -/
def Expr.isCall : Expr → Bool
  | .call .. => true
  | _ => false

/-- The tokens of an expression that is a statement. -/
def Expr.standing (e : Expr) : List Token :=
  let ts := e.tokens (some .equality)
  if !e.isCall && Token.beginCall ts then Token.parenthesised ts else ts

/-! ## Statements and programs -/

/-- The tokens of a statement. -/
def Stmt.tokens : Stmt → List Token
  | .block _ body => .ofKind .lbrace :: (body.map Stmt.tokens).flatten ++ [.ofKind .rbrace]
  | .expr _ e => e.standing ++ [.ofKind .semi]
  | .assign _ name value =>
    .ofName name :: .ofKind .assign :: value.tokens (some .equality) ++ [.ofKind .semi]
  | .ifElse _ cond yes none =>
    .ofKind .kwIf :: Token.parenthesised (cond.tokens (some .equality)) ++ yes.tokens
  | .ifElse _ cond yes (some no) =>
    .ofKind .kwIf :: Token.parenthesised (cond.tokens (some .equality)) ++ yes.tokens
      ++ .ofKind .kwElse :: no.tokens
  | .loop _ cond body =>
    .ofKind .kwWhile :: Token.parenthesised (cond.tokens (some .equality)) ++ body.tokens
  | .ret _ none => [.ofKind .kwReturn, .ofKind .semi]
  | .ret _ (some e) => .ofKind .kwReturn :: e.tokens (some .equality) ++ [.ofKind .semi]
  | .stray .. => []

/-- The tokens of a definition. -/
def FunctionDef.tokens (f : FunctionDef) : List Token :=
  .ofKind .kwFunc :: .ofName f.name ::
    Token.parenthesised (Token.commaSeparated (f.params.map fun param => [.ofName param]))
      ++ f.body.tokens

/-- The tokens of a program: its definitions, and then its statements. -/
def Program.tokens (p : Program) : List Token :=
  (p.functions.map FunctionDef.tokens).flatten ++ (p.body.inside.map Stmt.tokens).flatten

/-- A program as a text, with one space between two tokens. -/
def Program.text (p : Program) : String := " ".intercalate (p.tokens.map (·.lexeme))

end MiniLang
