/-
  Trees, tokens, compilations and reports as structured values.

  Every record becomes a node of its own kind with its fields; an operator, a kind of token and a
  severity become their names, an issue becomes its message, and what is missing becomes null.
-/
import MiniLang.Json
import MiniLang.Report

namespace MiniLang

def Position.datum (p : Position) : Datum :=
  .node "Position" [("line", .int p.line), ("column", .int p.column), ("index", .int p.index)]

def Span.datum (s : Span) : Datum :=
  .node "Span" [("start", s.start.datum), ("end", s.stop.datum)]

/-! ## Trees -/

/-- A node of a tree: its class, its place, and what else it holds. -/
def Datum.treeNode (label : String) (span : Span) (fields : List (String × Datum)) : Datum :=
  .node label (("span", span.datum) :: fields)

mutual

def Expr.datum : Expr → Datum
  | .lit span value => .treeNode "IntLiteral" span [("value", .int value)]
  | .var span name => .treeNode "VariableExpression" span [("name", .str name)]
  | .binary span left op right =>
    .treeNode "BinaryExpression" span
      [("left", left.datum), ("operator", .str op.label), ("right", right.datum)]
  | .call span name args =>
    .treeNode "CallExpression" span [("name", .str name), ("arguments", .list (Expr.data args))]
  | .stray span label => .treeNode label span []

def Expr.data : List Expr → List Datum
  | [] => []
  | e :: rest => e.datum :: Expr.data rest

end

mutual

def Stmt.datum : Stmt → Datum
  | .block span body => .treeNode "BlockStatement" span [("statements", .list (Stmt.data body))]
  | .expr span e => .treeNode "ExpressionStatement" span [("expression", e.datum)]
  | .assign span name value =>
    .treeNode "AssignmentStatement" span [("name", .str name), ("value", value.datum)]
  | .ifElse span cond yes none =>
    .treeNode "IfStatement" span
      [("condition", cond.datum), ("then_branch", yes.datum), ("else_branch", .null)]
  | .ifElse span cond yes (some no) =>
    .treeNode "IfStatement" span
      [("condition", cond.datum), ("then_branch", yes.datum), ("else_branch", no.datum)]
  | .loop span cond body =>
    .treeNode "WhileStatement" span [("condition", cond.datum), ("body", body.datum)]
  | .ret span value =>
    .treeNode "ReturnStatement" span [("value", .ofOption Expr.datum value)]
  | .stray span label => .treeNode label span []

def Stmt.data : List Stmt → List Datum
  | [] => []
  | s :: rest => s.datum :: Stmt.data rest

end

def FunctionDef.datum (f : FunctionDef) : Datum :=
  .treeNode "FunctionDef" f.span
    [("name", .str f.name), ("parameters", .list (f.params.map .str)), ("body", f.body.datum)]

def Program.datum (p : Program) : Datum :=
  .treeNode "ProgramNode" p.span
    [("functions", .list (p.functions.map FunctionDef.datum)), ("body", p.body.datum)]

/-! ## What comes of a text -/

def Token.datum (t : Token) : Datum :=
  .node "Token"
    [("kind", .str t.kind.label), ("lexeme", .str t.lexeme), ("span", t.span.datum),
     ("value", .ofOption .int t.value)]

def Diagnostic.datum (d : Diagnostic) : Datum :=
  .node "Diagnostic"
    [("severity", .str d.severity.label), ("message", .str d.message),
     ("span", .ofOption Span.datum d.span), ("hint", .ofOption .str d.hint)]

def Issue.datum (issue : Issue) : Datum := .str issue.message

def Compilation.datum (c : Compilation) : Datum :=
  .node "CompilationArtifacts"
    [("tokens", .list (c.tokens.map Token.datum)), ("ast", .ofOption Program.datum c.program),
     ("diagnostics", .list (c.diagnostics.map Diagnostic.datum)),
     ("error", .ofOption Issue.datum c.error)]

def Report.datum (r : Report) : Datum :=
  .node "ExecutionReport"
    [("compilation", r.compilation.datum), ("output", .str r.output),
     ("steps", .ofOption (fun n : Nat => .int n) r.shownSteps),
     ("globals", .dict (r.globals.map fun (name, v) => (name, .int v))),
     ("error", .ofOption Issue.datum r.error)]

end MiniLang
