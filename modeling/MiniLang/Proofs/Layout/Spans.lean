/-
  The spans in a tree or a report.

  `x.spans` lists every span that occurs in `x`, at whatever depth, the one of a node before those
  of the nodes inside it.  A layout moves these spans and no others (`Report.spans_placed`), so it
  leaves each of them in its place if it leaves the whole as it is (`Report.span_placed_of_fixed`).
-/
import MiniLang.Proofs.Layout.Placed

namespace MiniLang

/-! ## The spans in a thing -/

def Expr.spans : Expr → List Span
  | .lit s _ | .var s _ | .stray s _ => [s]
  | .binary s left _ right => s :: (left.spans ++ right.spans)
  | .call s _ args => s :: args.flatMap Expr.spans

def Stmt.spans : Stmt → List Span
  | .block s body => s :: body.flatMap Stmt.spans
  | .expr s e => s :: e.spans
  | .assign s _ value => s :: value.spans
  | .ifElse s cond yes none => s :: (cond.spans ++ yes.spans)
  | .ifElse s cond yes (some no) => s :: (cond.spans ++ yes.spans ++ no.spans)
  | .loop s cond body => s :: (cond.spans ++ body.spans)
  | .ret s none => [s]
  | .ret s (some e) => s :: e.spans
  | .stray s _ => [s]

def FunctionDef.spans (f : FunctionDef) : List Span := f.span :: f.body.spans

def Program.spans (p : Program) : List Span :=
  p.span :: (p.functions.flatMap FunctionDef.spans ++ p.body.spans)

def Issue.spans (issue : Issue) : List Span := issue.span.toList

def Diagnostic.spans (d : Diagnostic) : List Span := d.span.toList

def LexError.spans : LexError → List Span
  | .unknownCharacter _ span => [span]
  | .oversizedNumber _ => []

/-- The spans of the tokens, of the tree, of the remarks and of the error. -/
def Compilation.spans (c : Compilation) : List Span :=
  c.tokens.map (·.span) ++ c.program.toList.flatMap Program.spans
    ++ c.diagnostics.flatMap Diagnostic.spans ++ c.error.toList.flatMap Issue.spans

/-- The spans of the compilation and of the error of the run. -/
def Report.spans (r : Report) : List Span :=
  r.compilation.spans ++ r.error.toList.flatMap Issue.spans

/-! ## The spans in another layout -/

section

variable (l : Layout)

/-- Row by row: if each thing has its spans moved, so has a row of things. -/
theorem flatMap_spans_placed {α : Type} {spans : α → List Span} {placed : α → α} {as : List α}
    (h : ∀ a ∈ as, spans (placed a) = (spans a).map (Span.placed l)) :
    (as.map placed).flatMap spans = (as.flatMap spans).map (Span.placed l) := by
  rw [List.flatMap_map, List.map_flatMap, List.flatMap_def, List.flatMap_def,
    List.map_congr_left h]

theorem Expr.spans_placed : ∀ e : Expr, (e.placed l).spans = e.spans.map (Span.placed l)
  | .lit s v => by rw [placed, spans, spans, List.map_singleton]
  | .var s name => by rw [placed, spans, spans, List.map_singleton]
  | .stray s label => by rw [placed, spans, spans, List.map_singleton]
  | .binary s left op right => by
    rw [placed, spans, spans, spans_placed left, spans_placed right, List.map_cons, List.map_append]
  | .call s name args => by
    have hargs := flatMap_spans_placed l fun a (_ : a ∈ args) => spans_placed a
    rw [placed, spans, spans, hargs, List.map_cons]

theorem Stmt.spans_placed : ∀ s : Stmt, (s.placed l).spans = s.spans.map (Span.placed l)
  | .block s body => by
    have hbody := flatMap_spans_placed l fun t (_ : t ∈ body) => spans_placed t
    rw [placed, spans, spans, hbody, List.map_cons]
  | .expr s e => by rw [placed, spans, spans, e.spans_placed, List.map_cons]
  | .assign s name value => by rw [placed, spans, spans, value.spans_placed, List.map_cons]
  | .ifElse s cond yes none => by
    rw [placed, spans, spans, cond.spans_placed, spans_placed yes, List.map_cons, List.map_append]
  | .ifElse s cond yes (some no) => by
    rw [placed, spans, spans, cond.spans_placed, spans_placed yes, spans_placed no, List.map_cons,
      List.map_append, List.map_append]
  | .loop s cond body => by
    rw [placed, spans, spans, cond.spans_placed, spans_placed body, List.map_cons, List.map_append]
  | .ret s none => by rw [placed, Option.map_none, spans, spans, List.map_singleton]
  | .ret s (some e) => by
    rw [placed, Option.map_some, spans, spans, e.spans_placed, List.map_cons]
  | .stray s label => by rw [placed, spans, spans, List.map_singleton]

theorem FunctionDef.spans_placed (f : FunctionDef) :
    (f.placed l).spans = f.spans.map (Span.placed l) := by
  rw [spans, spans, List.map_cons, ← Stmt.spans_placed]
  rfl

theorem Program.spans_placed (p : Program) : (p.placed l).spans = p.spans.map (Span.placed l) := by
  have hfunctions := flatMap_spans_placed l fun f (_ : f ∈ p.functions) => f.spans_placed l
  rw [spans, spans, List.map_cons, List.map_append, ← hfunctions, ← Stmt.spans_placed]
  rfl

theorem Issue.spans_placed (issue : Issue) :
    (issue.placed l).spans = issue.spans.map (Span.placed l) := by
  rw [spans, spans, placed]
  cases issue.span <;> rfl

theorem Diagnostic.spans_placed (d : Diagnostic) :
    (d.placed l).spans = d.spans.map (Span.placed l) := by
  rw [spans, spans, placed]
  cases d.span <;> rfl

theorem flatMap_toList_map {α : Type} {spans : α → List Span} {placed : α → α} (o : Option α)
    (h : ∀ a, spans (placed a) = (spans a).map (Span.placed l)) :
    (o.map placed).toList.flatMap spans = (o.toList.flatMap spans).map (Span.placed l) := by
  rw [← flatMap_spans_placed l fun a _ => h a]
  cases o <;> rfl

theorem Compilation.spans_placed (c : Compilation) :
    (c.placed l).spans = c.spans.map (Span.placed l) := by
  have hdiagnostics := flatMap_spans_placed l fun d (_ : d ∈ c.diagnostics) => d.spans_placed l
  have hprogram := flatMap_toList_map l c.program (Program.spans_placed l)
  have herror := flatMap_toList_map l c.error (Issue.spans_placed l)
  rw [spans, spans, List.map_append, List.map_append, List.map_append, List.map_map, ← hdiagnostics,
    ← hprogram, ← herror, placed, List.map_map]
  rfl

theorem Report.spans_placed (r : Report) : (r.placed l).spans = r.spans.map (Span.placed l) := by
  have herror := flatMap_toList_map l r.error (Issue.spans_placed l)
  rw [spans, spans, List.map_append, ← herror, ← Compilation.spans_placed]
  rfl

end

theorem Report.span_placed_of_fixed {l : Layout} {r : Report} (h : r.placed l = r) :
    ∀ s ∈ r.spans, s.placed l = s := by
  have hmap : r.spans.map (Span.placed l) = r.spans.map id := by
    rw [← spans_placed, h, List.map_id]
  exact List.map_inj_left.mp hmap

end MiniLang
