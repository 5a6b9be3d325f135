/-
  Tokens, trees and reports in another layout.

  A `Layout` moves places: one function for the beginnings of spans and one for their ends, because
  two tokens that touch in one text need not touch in another, so that one place can be the end of
  the first and the beginning of the second and still move to two.  `x.placed l` is `x` with every
  span in it moved by `l`, and everything else as it was.

  The span from one place to another moves as its two ends do (`Span.placed_through`).  It is the
  only way in which the rest of the program makes spans, which is why parsing and running commute
  with every layout.
-/
import MiniLang.Report

namespace MiniLang

/-- Where places move to. -/
structure Layout where
  /-- Where a span begins that began here. -/
  start : Position → Position
  /-- Where a span ends that ended here. -/
  stop : Position → Position

variable (l : Layout)

namespace Span

def placed (s : Span) : Span := ⟨l.start s.start, l.stop s.stop⟩

theorem placed_through (a b : Span) :
    (a.through b).placed l = (a.placed l).through (b.placed l) := rfl

end Span

/-! ## Tokens and streams -/

namespace Token

def placed (t : Token) : Token := { t with span := t.span.placed l }

@[simp] theorem placed_kind (t : Token) : (t.placed l).kind = t.kind := rfl
@[simp] theorem placed_lexeme (t : Token) : (t.placed l).lexeme = t.lexeme := rfl
@[simp] theorem placed_value (t : Token) : (t.placed l).value = t.value := rfl
@[simp] theorem placed_span (t : Token) : (t.placed l).span = t.span.placed l := rfl

end Token

namespace TokenStream

def placed (s : TokenStream) : TokenStream := ⟨s.queue.map (Token.placed l), s.sentinel.placed l⟩

@[simp] theorem placed_front (s : TokenStream) : (s.placed l).front = s.front.placed l := by
  obtain ⟨queue, sentinel⟩ := s
  cases queue with
  | nil => rfl
  | cons t rest => rfl

@[simp] theorem placed_ahead (s : TokenStream) (n : Nat) :
    (s.placed l).ahead n = (s.ahead n).placed l := by
  rw [ahead, ahead, placed, List.getElem?_map, Option.getD_map]

@[simp] theorem placed_size (s : TokenStream) : (s.placed l).size = s.size := List.length_map _

theorem placed_pop (s : TokenStream) : (s.placed l).pop.2 = s.pop.2.placed l := by
  simp only [pop, placed, List.map_tail]

/-- The end marker moves with the list that it is the last token of. -/
theorem placed_ofTokens {tokens : List Token} {stop : Token} (hstop : stop.kind = .eof) :
    ofTokens ((tokens ++ [stop]).map (Token.placed l)) = (ofTokens (tokens ++ [stop])).placed l := by
  have hsentinel : ∀ (ts : List Token) (t : Token), t.kind = .eof → sentinelOf (ts ++ [t]) = t := by
    intro ts t ht
    rw [sentinelOf, List.getLast?_concat]
    exact if_pos ht
  rw [ofTokens, ofTokens, placed, hsentinel tokens stop hstop, List.map_append, List.map_singleton,
    hsentinel _ (stop.placed l) hstop]

end TokenStream

/-! ## Trees -/

def Expr.placed : Expr → Expr
  | .lit s v => .lit (s.placed l) v
  | .var s name => .var (s.placed l) name
  | .binary s left op right => .binary (s.placed l) left.placed op right.placed
  | .call s name args => .call (s.placed l) name (args.map Expr.placed)
  | .stray s label => .stray (s.placed l) label

def Stmt.placed : Stmt → Stmt
  | .block s body => .block (s.placed l) (body.map Stmt.placed)
  | .expr s e => .expr (s.placed l) (e.placed l)
  | .assign s name value => .assign (s.placed l) name (value.placed l)
  | .ifElse s cond yes none => .ifElse (s.placed l) (cond.placed l) yes.placed none
  | .ifElse s cond yes (some no) =>
    .ifElse (s.placed l) (cond.placed l) yes.placed (some no.placed)
  | .loop s cond body => .loop (s.placed l) (cond.placed l) body.placed
  | .ret s value => .ret (s.placed l) (value.map (Expr.placed l))
  | .stray s label => .stray (s.placed l) label

def FunctionDef.placed (f : FunctionDef) : FunctionDef :=
  { f with span := f.span.placed l, body := f.body.placed l }

def Program.placed (p : Program) : Program :=
  ⟨p.span.placed l, p.functions.map (FunctionDef.placed l), p.body.placed l⟩

theorem Expr.placed_span (e : Expr) : (e.placed l).span = e.span.placed l := by
  cases e <;> rw [placed] <;> rfl

theorem Stmt.placed_span (s : Stmt) : (s.placed l).span = s.span.placed l := by
  cases s with
  | ifElse s cond yes no => cases no <;> rw [placed] <;> rfl
  | _ => rw [placed]; rfl

theorem Stmt.placed_ifElse (s : Span) (cond : Expr) (yes : Stmt) (no : Option Stmt) :
    (Stmt.ifElse s cond yes no).placed l =
      .ifElse (s.placed l) (cond.placed l) (yes.placed l) (no.map (Stmt.placed l)) := by
  cases no <;> rw [placed] <;> rfl

/-- A statement has as many statements inside it wherever it stands. -/
theorem Stmt.placed_inside (s : Stmt) :
    (s.placed l).inside = s.inside.map (Stmt.placed l) := by
  cases s with
  | ifElse s cond yes no => rw [placed_ifElse]; rfl
  | _ => rw [placed]; rfl

/-! ## Failures and remarks -/

def ParseError.placed : ParseError → ParseError
  | expected kind got => expected kind (got.placed l)
  | expectedExpression got => expectedExpression (got.placed l)

def ParseHalt.placed : ParseHalt → ParseHalt
  | wrong error => wrong (error.placed l)
  | tooDeep => tooDeep

def Halt.placed : Halt → Halt
  | failed fault span calls => failed fault (span.placed l) calls
  | tooDeep => tooDeep
  | unfinished => unfinished

def Issue.placed (issue : Issue) : Issue := { issue with span := issue.span.map (Span.placed l) }

def Diagnostic.placed (d : Diagnostic) : Diagnostic := { d with span := d.span.map (Span.placed l) }

theorem ParseHalt.placed_issue (halt : ParseHalt) : (halt.placed l).issue = halt.issue.placed l := by
  cases halt with
  | tooDeep => rfl
  | wrong error =>
    cases error with
    | expectedExpression got => rfl
    | expected kind got => cases kind <;> rfl

theorem Halt.placed_issue? (halt : Halt) :
    (halt.placed l).issue? = halt.issue?.map (Issue.placed l) := by
  cases halt <;> rfl

/-! ## States and reports -/

/-- Every entry of a table changed in the same way. -/
def Table.mapEntries {α β : Type} (f : α → β) (t : Table α) : Table β :=
  t.map fun entry => (entry.1, f entry.2)

def Symbol.placed : Symbol → Symbol
  | .variable v => .variable v
  | .function f => .function (f.placed l)

def Machine.placed (m : Machine) : Machine :=
  { m with globals := m.globals.mapEntries (Symbol.placed l) }

def Outcome.placed (o : Outcome) : Outcome := ⟨o.machine.placed l, o.halt.map (Halt.placed l)⟩

def Compilation.placed (c : Compilation) : Compilation :=
  ⟨c.tokens.map (Token.placed l), c.program.map (Program.placed l),
    c.diagnostics.map (Diagnostic.placed l), c.error.map (Issue.placed l)⟩

def Report.placed (r : Report) : Report :=
  { r with compilation := r.compilation.placed l, error := r.error.map (Issue.placed l) }

end MiniLang
