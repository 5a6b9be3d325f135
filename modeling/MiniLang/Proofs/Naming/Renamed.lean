/-
  Programs under other names.

  A program uses names for functions, parameters and variables alike.  They share one namespace: a
  name may be a local of one call, a global variable, and a function at the same time.  So a
  renaming is one map for all of them.  It keeps `print`, which the evaluator knows by its name.

  1. **Names** — `IsCallable`: what stands as a name in a source, an identifier or `print`.  A
     `Renaming` maps different ones to different ones.  What it makes of other texts is of no
     interest, and it need not make identifiers.
  2. **Trees** — `x.renamed r` is `x` with every name in it put through `r`; places and the labels
     of stray nodes stay.
  3. **Named trees** — every name in them is callable, as it is in whatever is parsed.
  4. **Halts** — a failure names names, and it lists the live calls, the last of which is that of
     the program itself, and no name in it.
-/
import MiniLang.Machine.Run
import MiniLang.Proofs.Printing.Parsed

namespace MiniLang

/-! ## Names -/

/-- A text that can stand as a name in a source. -/
def IsCallable (name : String) : Prop := Token.IsName name ∨ name = printName

/-- Other names for the names of a program. -/
structure Renaming where
  apply : String → String
  print : apply printName = printName
  injective : ∀ {a b}, IsCallable a → IsCallable b → apply a = apply b → a = b

variable (r : Renaming)

theorem isCallable_print : IsCallable printName := .inr rfl

theorem Renaming.apply_inj {a b : String} (ha : IsCallable a) (hb : IsCallable b) :
    r.apply a = r.apply b ↔ a = b :=
  ⟨r.injective ha hb, congrArg r.apply⟩

/-- No other name becomes `print`. -/
theorem Renaming.apply_eq_print {name : String} (h : IsCallable name) :
    r.apply name = printName ↔ name = printName := by
  rw [← r.apply_inj h isCallable_print, r.print]

/-! ## Trees -/

def Expr.renamed : Expr → Expr
  | .lit s v => .lit s v
  | .var s name => .var s (r.apply name)
  | .binary s left op right => .binary s left.renamed op right.renamed
  | .call s name args => .call s (r.apply name) (args.map Expr.renamed)
  | .stray s label => .stray s label

def Stmt.renamed : Stmt → Stmt
  | .block s body => .block s (body.map Stmt.renamed)
  | .expr s e => .expr s (e.renamed r)
  | .assign s name value => .assign s (r.apply name) (value.renamed r)
  | .ifElse s cond yes none => .ifElse s (cond.renamed r) yes.renamed none
  | .ifElse s cond yes (some no) => .ifElse s (cond.renamed r) yes.renamed (some no.renamed)
  | .loop s cond body => .loop s (cond.renamed r) body.renamed
  | .ret s value => .ret s (value.map (Expr.renamed r))
  | .stray s label => .stray s label

def FunctionDef.renamed (f : FunctionDef) : FunctionDef :=
  ⟨f.span, r.apply f.name, f.params.map r.apply, f.body.renamed r⟩

def Program.renamed (p : Program) : Program :=
  ⟨p.span, p.functions.map (FunctionDef.renamed r), p.body.renamed r⟩

theorem Stmt.renamed_span (s : Stmt) : (s.renamed r).span = s.span := by
  cases s with
  | ifElse s cond yes no => cases no <;> simp only [renamed, span]
  | _ => simp only [renamed, span]

theorem Stmt.renamed_ifElse (s : Span) (cond : Expr) (yes : Stmt) (no : Option Stmt) :
    (Stmt.ifElse s cond yes no).renamed r =
      .ifElse s (cond.renamed r) (yes.renamed r) (no.map (Stmt.renamed r)) := by
  cases no <;> rw [renamed] <;> rfl

/-! ## Named trees -/

/-- Every name in the expression is callable. -/
inductive Expr.Named : Expr → Prop
  | lit {span v} : Named (.lit span v)
  | var {span name} : IsCallable name → Named (.var span name)
  | binary {span left op right} : Named left → Named right → Named (.binary span left op right)
  | call {span name args} : IsCallable name → (∀ a ∈ args, Named a) → Named (.call span name args)
  | stray {span label} : Named (.stray span label)

/-- Every name in the statement is callable. -/
inductive Stmt.Named : Stmt → Prop
  | block {span body} : (∀ s ∈ body, Named s) → Named (.block span body)
  | expr {span e} : e.Named → Named (.expr span e)
  | assign {span name value} : IsCallable name → value.Named → Named (.assign span name value)
  | ifElse {span cond yes no} : cond.Named → Named yes → (∀ s ∈ no, Named s) →
      Named (.ifElse span cond yes no)
  | loop {span cond body} : cond.Named → Named body → Named (.loop span cond body)
  | ret {span value} : (∀ e ∈ value, e.Named) → Named (.ret span value)
  | stray {span label} : Named (.stray span label)

/-- Every name in the definition is callable. -/
structure FunctionDef.Named (f : FunctionDef) : Prop where
  name : IsCallable f.name
  params : ∀ param ∈ f.params, IsCallable param
  body : f.body.Named

/-- Every name in the program is callable. -/
structure Program.Named (p : Program) : Prop where
  functions : ∀ f ∈ p.functions, f.Named
  body : p.body.Named

theorem Expr.named_of_parsed {e : Expr} (h : e.Parsed) : e.Named := by
  induction h with
  | lit _ => exact .lit
  | var hname => exact .var (.inl hname)
  | binary _ _ _ _ ihl ihr => exact .binary ihl ihr
  | call hname _ ih => exact .call hname ih

theorem Stmt.named_of_parsed {s : Stmt} (h : s.Parsed) : s.Named := by
  induction h with
  | block _ ih => exact .block ih
  | expr he => exact .expr (Expr.named_of_parsed he)
  | assign hname he => exact .assign (.inl hname) (Expr.named_of_parsed he)
  | ifThen hcond _ ih => exact .ifElse (Expr.named_of_parsed hcond) ih nofun
  | ifElse hcond _ _ _ ihyes ihno =>
    refine .ifElse (Expr.named_of_parsed hcond) ihyes ?_
    rintro s ⟨⟩
    exact ihno
  | loop hcond _ ih => exact .loop (Expr.named_of_parsed hcond) ih
  | retNone => exact .ret nofun
  | ret he =>
    refine .ret ?_
    rintro e ⟨⟩
    exact Expr.named_of_parsed he

/-- Whatever is parsed from a source is named. -/
theorem Program.Parsed.named {p : Program} (h : p.Parsed) : p.Named where
  functions := by
    intro f hf
    have hparsed := h.functions f hf
    exact ⟨.inl hparsed.name, fun param hparam => .inl (hparsed.params param hparam),
      Stmt.named_of_parsed hparsed.body.parsed⟩
  body := Stmt.named_of_parsed h.body.parsed

/-! ## Halts -/

/-- The names of some live calls, the last of which is that of the program itself. -/
def Renaming.calls (calls : List String) : List String :=
  calls.dropLast.map r.apply ++ [mainRecord.function]

def Fault.renamed : Fault → Fault
  | .undefinedVariable name => .undefinedVariable (r.apply name)
  | .unknownFunction name => .unknownFunction (r.apply name)
  | .arityMismatch name params args => .arityMismatch (r.apply name) params args
  | fault => fault

def Halt.renamed : Halt → Halt
  | .failed fault span calls => .failed (fault.renamed r) span (r.calls calls)
  | halt => halt

/-- A table with other keys. -/
def Table.renamed {α : Type} (t : Table α) : Table α := t.map fun entry => (r.apply entry.1, entry.2)

end MiniLang
