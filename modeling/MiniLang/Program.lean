/-
  Programs as trees.

  A program is a list of function definitions and a body; a body is a statement, and the parser
  always makes it a block.  Every node keeps the stretch of source it was read from.  The operator
  of a binary expression is the kind of its token, so a tree built by hand may carry one that no
  evaluation knows; and where a statement or an expression belongs it may hold a node of another
  class (`stray`), of which only the name and the place matter.
-/
import MiniLang.Token

namespace MiniLang

/-- Expressions. -/
inductive Expr
  | lit (span : Span) (value : Int)
  | var (span : Span) (name : String)
  | binary (span : Span) (left : Expr) (op : Token.Kind) (right : Expr)
  | call (span : Span) (name : String) (args : List Expr)
  /-- A node that is no expression, in the place of one. -/
  | stray (span : Span) (label : String)
  deriving Inhabited

/-- Statements. -/
inductive Stmt
  | block (span : Span) (body : List Stmt)
  | expr (span : Span) (e : Expr)
  | assign (span : Span) (name : String) (value : Expr)
  | ifElse (span : Span) (cond : Expr) (yes : Stmt) (no : Option Stmt)
  | loop (span : Span) (cond : Expr) (body : Stmt)
  | ret (span : Span) (value : Option Expr)
  /-- A node that is no statement, in the place of one. -/
  | stray (span : Span) (label : String)
  deriving Inhabited

/-- A function with its parameters, in the order of its arguments. -/
structure FunctionDef where
  span : Span
  name : String
  params : List String
  body : Stmt
  deriving Inhabited

/-- A program: what it defines and what it does. -/
structure Program where
  span : Span
  functions : List FunctionDef
  body : Stmt
  deriving Inhabited

namespace Expr

/-- Where an expression stands. -/
def span : Expr → Span
  | lit s _ | var s _ | binary s _ _ _ | call s _ _ | stray s _ => s

/-- The name of a node's class. -/
def label : Expr → String
  | lit .. => "IntLiteral"
  | var .. => "VariableExpression"
  | binary .. => "BinaryExpression"
  | call .. => "CallExpression"
  | stray _ label => label

end Expr

namespace Stmt

/-- Where a statement stands. -/
def span : Stmt → Span
  | block s _ | expr s _ | assign s _ _ | ifElse s _ _ _ | loop s _ _ | ret s _ | stray s _ => s

/-- The name of a node's class. -/
def label : Stmt → String
  | block .. => "BlockStatement"
  | expr .. => "ExpressionStatement"
  | assign .. => "AssignmentStatement"
  | ifElse .. => "IfStatement"
  | loop .. => "WhileStatement"
  | ret .. => "ReturnStatement"
  | stray _ label => label

/-- The statements of a block; any other statement has none inside it in this sense. -/
def inside : Stmt → List Stmt
  | block _ body => body
  | _ => []

end Stmt

end MiniLang
