/-
  Running in another layout.

  The evaluator reads no span; it hands the span of a node on to the failure that happens there.
  So a program in another layout runs through the same states, with the functions among their
  globals moved, and fails, if it does, at the same node in the new layout.

  1. **States** — reading, assigning and finding a function commute with a layout.
  2. **Computations** — `Eval.Placed l f x y`: from a state in the layout `l`, `y` ends as `x` does
     from the state itself, with the value moved by `f`.
  3. **The evaluator** — by induction on the frames, and whole runs (`run_placed`).
-/
import MiniLang.Proofs.Budget.Truncation
import MiniLang.Proofs.Layout.Placed

namespace MiniLang

variable {l : Layout} {α β : Type}

/-! ## States -/

namespace Table

theorem get?_mapEntries (f : α → β) (t : Table α) (name : String) :
    (t.mapEntries f).get? name = (t.get? name).map f := by
  induction t with
  | nil => rfl
  | cons entry rest ih =>
    obtain ⟨key, a⟩ := entry
    show get? ((key, f a) :: mapEntries f rest) name = _
    by_cases h : key = name
    · simp only [get?, h, if_true, Option.map_some]
    · simp only [get?, h, if_false]
      exact ih

theorem set_mapEntries (f : α → β) (t : Table α) (name : String) (a : α) :
    (t.set name a).mapEntries f = (t.mapEntries f).set name (f a) := by
  induction t with
  | nil => rfl
  | cons entry rest ih =>
    obtain ⟨key, b⟩ := entry
    show mapEntries f (set ((key, b) :: rest) name a) = set ((key, f b) :: mapEntries f rest) name _
    by_cases h : key = name
    · simp only [set, h, if_true]
      rfl
    · simp only [set, h, if_false]
      exact congrArg ((key, f b) :: ·) ih

end Table

namespace Machine

theorem read?_placed (m : Machine) (name : String) : (m.placed l).read? name = m.read? name := by
  have hglobal : (m.placed l).globals.get? name = (m.globals.get? name).map (Symbol.placed l) :=
    Table.get?_mapEntries (Symbol.placed l) m.globals name
  have hstack : (m.placed l).stack = m.stack := rfl
  rw [read?, read?, hglobal, hstack]
  cases localIn m.stack name with
  | some v => rfl
  | none =>
    rcases m.globals.get? name with _ | v | f
    · rfl
    · rfl
    · rfl

theorem callee?_placed (m : Machine) (name : String) :
    (m.placed l).callee? name = (m.callee? name).map (FunctionDef.placed l) := by
  have hglobal : (m.placed l).globals.get? name = (m.globals.get? name).map (Symbol.placed l) :=
    Table.get?_mapEntries (Symbol.placed l) m.globals name
  rw [callee?, callee?, hglobal]
  rcases m.globals.get? name with _ | v | f
  · rfl
  · rfl
  · rfl

theorem assign_placed (m : Machine) (name : String) (v : Int) :
    (m.placed l).assign name v = (m.assign name v).placed l := by
  have hset : (m.globals.set name (.variable v)).mapEntries (Symbol.placed l) =
      (m.globals.mapEntries (Symbol.placed l)).set name (.variable v) :=
    Table.set_mapEntries (Symbol.placed l) m.globals name (.variable v)
  have hstack : (m.placed l).stack = m.stack := rfl
  rw [assign, assign, hstack]
  cases rebindIn m.stack name v with
  | some stack => rfl
  | none =>
    show Machine.mk ((m.globals.mapEntries (Symbol.placed l)).set name (.variable v)) _ _ _ = _
    rw [← hset]
    rfl

theorem define_placed (m : Machine) (functions : List FunctionDef) :
    (m.placed l).define (functions.map (FunctionDef.placed l)) = (m.define functions).placed l := by
  have hglobals : ∀ (fs : List FunctionDef) (t : Table Symbol),
      (fs.map (FunctionDef.placed l)).foldl (fun t f => t.set f.name (.function f))
        (t.mapEntries (Symbol.placed l)) =
      (fs.foldl (fun t f => t.set f.name (.function f)) t).mapEntries (Symbol.placed l) := by
    intro fs
    induction fs with
    | nil => exact fun t => rfl
    | cons f fs ih =>
      intro t
      rw [List.map_cons, List.foldl_cons, List.foldl_cons, ← ih,
        Table.set_mapEntries (Symbol.placed l) t f.name (.function f)]
      rfl
  show Machine.mk _ m.stack m.printed m.steps = Machine.mk _ m.stack m.printed m.steps
  exact congrArg (Machine.mk · m.stack m.printed m.steps) (hglobals functions m.globals)

theorem globalVars_placed (m : Machine) : (m.placed l).globalVars = m.globalVars := by
  show List.filterMap _ (m.globals.map _) = List.filterMap _ m.globals
  rw [List.filterMap_map]
  congr 1
  funext entry
  obtain ⟨name, v | f⟩ := entry
  · rfl
  · rfl

end Machine

/-! ## Computations -/

namespace Eval

/-- How a computation ends in another layout, where `f` moves the values. -/
def placedResult (l : Layout) (f : α → α) :
    EStateM.Result Halt Machine α → EStateM.Result Halt Machine α
  | .ok a m => .ok (f a) (m.placed l)
  | .error halt m => .error (halt.placed l) (m.placed l)

/-- In the layout `l` the second computation does what the first one does. -/
def Placed (l : Layout) (f : α → α) (x y : Eval α) : Prop :=
  ∀ m, y (m.placed l) = placedResult l f (x m)

namespace Placed

theorem bind {f : α → α} {g : β → β} {x y : Eval α} {k k' : α → Eval β} (hx : Placed l f x y)
    (hk : ∀ a, Placed l g (k a) (k' (f a))) : Placed l g (x >>= k) (y >>= k') := by
  intro m
  have hy := hx m
  cases hm : x m with
  | error halt m' =>
    rw [hm] at hy
    rw [Eval.bind_of_error hm, Eval.bind_of_error hy]
    rfl
  | ok a m' =>
    rw [hm] at hy
    rw [Eval.bind_of_ok hm, Eval.bind_of_ok hy]
    exact hk a m'

theorem pure (a : α) : Placed l id (pure a) (pure a) := fun _ => rfl

theorem throw {halt : Halt} (h : halt.placed l = halt) :
    Placed l id (throw halt : Eval α) (throw halt) := by
  intro m
  show EStateM.Result.error halt (m.placed l) = .error (halt.placed l) (m.placed l)
  rw [h]

theorem tooDeep : Placed l id (Eval.tooDeep : Eval α) Eval.tooDeep := throw rfl

theorem fail (fault : Fault) (span : Span) :
    Placed l id (Eval.fail fault span : Eval α) (Eval.fail fault (span.placed l)) := fun _ => rfl

theorem tick (limits : Limits) (span : Span) :
    Placed l id (Eval.tick limits span) (Eval.tick limits (span.placed l)) := by
  intro m
  by_cases hclock : m.steps + 1 ≤ limits.clock
  · simp only [Eval.tick, Machine.placed, hclock, if_true]
    rfl
  · by_cases hbudget : limits.budget.isSome = true
    · simp only [Eval.tick, Machine.placed, hclock, hbudget, if_true, if_false]
      rfl
    · simp only [Eval.tick, Machine.placed, hclock, hbudget, if_false]
      rfl

theorem read (span : Span) (name : String) :
    Placed l id (Eval.read span name) (Eval.read (span.placed l) name) := by
  intro m
  rw [Eval.read, Eval.read, Machine.read?_placed]
  cases m.read? name with
  | some v => rfl
  | none => rfl

theorem assign (name : String) (v : Int) :
    Placed l id (Eval.assign name v) (Eval.assign name v) := by
  intro m
  show EStateM.Result.ok () ((m.placed l).assign name v) = .ok () ((m.assign name v).placed l)
  rw [Machine.assign_placed]

theorem emit (v : Int) : Placed l id (Eval.emit v) (Eval.emit v) := fun _ => rfl

theorem operate (span : Span) (op : Token.Kind) (left right : Int) :
    Placed l id (Eval.operate span op left right) (Eval.operate (span.placed l) op left right) := by
  unfold Eval.operate
  cases op.apply left right with
  | ok v => exact pure v
  | error fault => exact fail fault span

theorem callee (span : Span) (name : String) (args : Nat) :
    Placed l (FunctionDef.placed l) (Eval.callee span name args)
      (Eval.callee (span.placed l) name args) := by
  intro m
  rw [Eval.callee, Eval.callee, Machine.callee?_placed]
  cases m.callee? name with
  | none => rfl
  | some f =>
    show (if f.params.length = args then _ else _) = placedResult l _ (if _ then _ else _)
    by_cases hargs : f.params.length = args
    · rw [if_pos hargs, if_pos hargs]
      rfl
    · rw [if_neg hargs, if_neg hargs]
      rfl

theorem within {f : α → α} {x y : Eval α} (record : Record) (h : Placed l f x y) :
    Placed l f (Eval.within record x) (Eval.within record y) := by
  intro m
  have hinside : y { m.placed l with stack := record :: m.stack } =
      placedResult l f (x { m with stack := record :: m.stack }) :=
    h { m with stack := record :: m.stack }
  have hstack : (m.placed l).stack = m.stack := rfl
  rw [Eval.within, Eval.within, hstack, hinside]
  cases x { m with stack := record :: m.stack } with
  | ok a m' => rfl
  | error halt m' => rfl

theorem each {eval eval' : Expr → Eval Int}
    (h : ∀ e, Placed l id (eval e) (eval' (e.placed l))) :
    ∀ es, Placed l id (Eval.each eval es) (Eval.each eval' (es.map (Expr.placed l))) := by
  intro es
  induction es with
  | nil => exact pure []
  | cons e rest ih =>
    rw [List.map_cons, Eval.each, Eval.each]
    apply bind (h e)
    intro v
    exact bind ih fun vs => pure (v :: vs)

theorem sequence {exec exec' : Stmt → Eval Completion}
    (h : ∀ s, Placed l id (exec s) (exec' (s.placed l))) : ∀ body,
    Placed l id (Eval.sequence exec body) (Eval.sequence exec' (body.map (Stmt.placed l))) := by
  intro body
  induction body with
  | nil => exact pure Completion.next
  | cons s rest ih =>
    rw [List.map_cons, Eval.sequence, Eval.sequence]
    apply bind (h s)
    intro completion
    cases completion with
    | next => exact ih
    | returned v => exact pure (Completion.returned v)

theorem whileNonzero {cond cond' : Eval Int} {body body' : Eval Completion}
    (hcond : Placed l id cond cond') (hbody : Placed l id body body') :
    ∀ n, Placed l id (Eval.whileNonzero cond body n) (Eval.whileNonzero cond' body' n) := by
  intro n
  induction n with
  | zero => exact throw rfl
  | succ n ih =>
    rw [Eval.whileNonzero, Eval.whileNonzero]
    apply bind hcond
    intro v
    by_cases hv : v = 0
    · simp only [id, hv, if_true]
      exact pure Completion.next
    · simp only [id, hv, if_false]
      apply bind hbody
      intro completion
      cases completion with
      | next => exact ih
      | returned v => exact pure (Completion.returned v)

end Placed

end Eval

/-! ## The evaluator -/

open Eval (Placed)

/-- With `d` frames the evaluator goes the same way in every layout. -/
structure EvaluatorPlaced (l : Layout) (limits : Limits) (d : Nat) : Prop where
  eval : ∀ e : Expr, Placed l id (e.eval limits d) ((e.placed l).eval limits d)
  exec : ∀ s : Stmt, Placed l id (s.exec limits d) ((s.placed l).exec limits d)
  call : ∀ span name args, Placed l id (callFunction limits d span name args)
    (callFunction limits d (span.placed l) name (args.map (Expr.placed l)))

section Evaluator

variable {limits : Limits} {d : Nat}

theorem eval_placed (h : EvaluatorPlaced l limits d) (e : Expr) :
    Placed l id (e.eval limits (d + 1)) ((e.placed l).eval limits (d + 1)) := by
  cases e with
  | lit span v =>
    rw [Expr.placed]
    exact .pure v
  | var span name =>
    rw [Expr.placed]
    exact .read span name
  | stray span label =>
    rw [Expr.placed]
    exact .fail _ span
  | call span name args =>
    rw [Expr.placed]
    exact h.call span name args
  | binary span left op right =>
    rw [Expr.placed, Expr.eval, Expr.eval]
    apply Placed.bind (h.eval left)
    intro a
    apply Placed.bind (h.eval right)
    intro b
    exact .operate span op a b

theorem exec_placed (h : EvaluatorPlaced l limits d) (s : Stmt) :
    Placed l id (s.exec limits (d + 1)) ((s.placed l).exec limits (d + 1)) := by
  unfold Stmt.exec
  rw [Stmt.placed_span]
  apply Placed.bind (.tick limits s.span)
  intro _
  cases s with
  | block span body =>
    rw [Stmt.placed]
    exact .sequence h.exec body
  | expr span e =>
    rw [Stmt.placed]
    exact .bind (h.eval e) fun _ => .pure Completion.next
  | assign span name value =>
    rw [Stmt.placed]
    apply Placed.bind (h.eval value)
    intro v
    exact .bind (.assign name v) fun _ => .pure Completion.next
  | ifElse span cond yes no =>
    rw [Stmt.placed_ifElse]
    apply Placed.bind (h.eval cond)
    intro v
    by_cases hv : v = 0
    · simp only [id, hv, if_true]
      cases no with
      | some s => exact h.exec s
      | none => exact .pure Completion.next
    · simp only [id, hv, if_false]
      exact h.exec yes
  | loop span cond body =>
    rw [Stmt.placed]
    exact .whileNonzero (h.eval cond) (h.exec body) _
  | ret span value =>
    rw [Stmt.placed]
    cases value with
    | none => exact .pure (Completion.returned 0)
    | some e => exact .bind (h.eval e) fun v => .pure (Completion.returned v)
  | stray span label =>
    rw [Stmt.placed]
    exact .fail _ span

theorem call_placed (h : EvaluatorPlaced l limits d) (span : Span) (name : String)
    (args : List Expr) : Placed l id (callFunction limits (d + 1) span name args)
      (callFunction limits (d + 1) (span.placed l) name (args.map (Expr.placed l))) := by
  unfold callFunction
  by_cases hname : name = printName
  · rw [if_pos hname, if_pos hname]
    rcases args with _ | ⟨e, _ | ⟨e', rest⟩⟩
    · exact .fail _ span
    · apply Placed.bind (h.eval e)
      intro v
      exact .bind (.emit v) fun _ => .pure 0
    · rw [List.length_map]
      exact .fail _ span
  · rw [if_neg hname, if_neg hname, List.length_map]
    apply Placed.bind (.callee span name args.length)
    intro f
    apply Placed.bind (.each h.eval args)
    intro vs
    apply Placed.bind (.within _ (h.exec f.body))
    intro completion
    cases completion with
    | next => exact .pure 0
    | returned v => exact .pure v

theorem evaluator_placed (l : Layout) (limits : Limits) : ∀ d, EvaluatorPlaced l limits d := by
  intro d
  induction d with
  | zero =>
    exact {
      eval := fun e => by rw [Expr.eval, Expr.eval]; exact .tooDeep
      exec := fun s => by rw [Stmt.exec, Stmt.exec]; exact .tooDeep
      call := fun span name args => by rw [callFunction, callFunction]; exact .tooDeep }
  | succ d ih => exact { eval := eval_placed ih, exec := exec_placed ih, call := call_placed ih }

/-- A program in another layout runs as the program does, and fails at the same node. -/
theorem run_placed (program : Program) :
    (program.placed l).run limits = (program.run limits).placed l := by
  have hwork : Placed l id (program.work limits) ((program.placed l).work limits) :=
    .within mainRecord ((evaluator_placed l limits limits.frames).exec program.body)
  have hstart : (program.placed l).start = program.start.placed l :=
    Machine.define_placed Machine.empty program.functions
  have hrun := hwork program.start
  rw [← hstart] at hrun
  cases hm : program.work limits program.start with
  | ok c m =>
    rw [hm] at hrun
    rw [Program.run_of_ok hm, Program.run_of_ok hrun]
    rfl
  | error halt m =>
    rw [hm] at hrun
    rw [Program.run_of_error hm, Program.run_of_error hrun]
    rfl

end Evaluator

end MiniLang
