/-
  Running statements and evaluating expressions.

  1. **Outcomes** — an evaluation is a function on states that ends in a value or in a `Halt`, and
     in both cases leaves a state behind: what a failing program printed and assigned stays.
  2. **Steps** — every statement counts one step before anything else happens, and the step that
     exceeds the clock stops the run at that statement.  With a budget the clock is the budget and
     the stop is a failure of the program; without one the clock is a patience of the caller, and
     the stop says that the run is not over.
  3. **Depth** — `Expr.eval`, `Stmt.exec` and `callFunction` hand each other a smaller number of
     frames, so every evaluation ends.  The loop counts down from the clock: each round counts a
     step at least, so the clock stops it before it comes to the end of its own count.
  4. **Calls** — the record of a call is live from when all arguments are known until the body
     ends in whatever way.
-/
import MiniLang.Machine.Fault
import MiniLang.Machine.State
import MiniLang.Word

namespace MiniLang

/-- How far a run may go. -/
structure Limits where
  /-- The number of steps the program may take, if there is one. -/
  budget : Option Int
  /-- The number of steps after which a run without a budget is given up as unfinished. -/
  patience : Nat
  /-- The number of nested evaluations. -/
  frames : Nat
  deriving DecidableEq

/-- The number of steps that go through. -/
def Limits.clock (limits : Limits) : Nat :=
  match limits.budget with
  | some k => k.toNat
  | none => limits.patience

/-- A computation on states that ends in a value or a halt. -/
abbrev Eval := EStateM Halt Machine

/-- How a statement ends when nothing fails. -/
inductive Completion
  /-- The next statement follows. -/
  | next
  /-- The function at work returns a value. -/
  | returned (value : Int)
  deriving DecidableEq

namespace Eval

/-- Fails at a place, inside the calls that are live. -/
def fail {α : Type} (fault : Fault) (span : Span) : Eval α := fun m =>
  .error (.failed fault span m.calls) m

/-- Stops because the frames are used up. -/
def tooDeep {α : Type} : Eval α := throw .tooDeep

/-- Counts a step for the statement at a place. -/
def tick (limits : Limits) (span : Span) : Eval Unit := fun m =>
  let m := { m with steps := m.steps + 1 }
  if m.steps ≤ limits.clock then .ok () m
  else if limits.budget.isSome then fail .stepLimit span m
  else .error .unfinished m

/-- A step goes through, or the clock stops the run; it is counted in any case. -/
theorem tick_cases (limits : Limits) (span : Span) (m : Machine) :
    (m.steps < limits.clock ∧ tick limits span m = .ok () { m with steps := m.steps + 1 }) ∨
    (limits.clock ≤ m.steps ∧ limits.budget.isSome = true ∧
      tick limits span m = fail .stepLimit span { m with steps := m.steps + 1 }) ∨
    (limits.clock ≤ m.steps ∧ limits.budget = none ∧
      tick limits span m = .error .unfinished { m with steps := m.steps + 1 }) := by
  unfold tick
  by_cases hclock : m.steps + 1 ≤ limits.clock
  · exact .inl ⟨hclock, if_pos hclock⟩
  · have hstop : limits.clock ≤ m.steps := by omega
    by_cases hbudget : limits.budget.isSome = true
    · refine .inr (.inl ⟨hstop, hbudget, ?_⟩)
      simp only [hclock, hbudget, if_true, if_false]
    · refine .inr (.inr ⟨hstop, by simpa using hbudget, ?_⟩)
      simp only [hclock, hbudget, if_false]
      rfl

/-- The value of a name. -/
def read (span : Span) (name : String) : Eval Int := fun m =>
  match m.read? name with
  | some v => .ok v m
  | none => fail (.undefinedVariable name) span m

/-- Gives a name a value. -/
def assign (name : String) (v : Int) : Eval Unit := modify fun m => m.assign name v

/-- Prints a value. -/
def emit (v : Int) : Eval Unit := modify fun m => { m with printed := m.printed.push v }

/-- Does something inside a live call, which is over afterwards also if it fails. -/
@[inline] def within {α : Type} (record : Record) (body : Eval α) : Eval α := fun m =>
  match body { m with stack := record :: m.stack } with
  | .ok a m => .ok a { m with stack := m.stack.tail }
  | .error e m => .error e { m with stack := m.stack.tail }

/-- The values of some expressions, from the first to the last. -/
@[specialize] def each (eval : Expr → Eval Int) : List Expr → Eval (List Int)
  | [] => return []
  | e :: rest => do
    let v ← eval e
    let vs ← each eval rest
    return v :: vs

/-- Some statements one after the other, up to one that returns. -/
@[specialize] def sequence (exec : Stmt → Eval Completion) : List Stmt → Eval Completion
  | [] => return .next
  | s :: rest => do
    match ← exec s with
    | .next => sequence exec rest
    | .returned v => return .returned v

/-- A body again and again while a condition is not zero, up to a round that returns. -/
@[specialize] def whileNonzero (cond : Eval Int) (body : Eval Completion) : Nat → Eval Completion
  | 0 => throw .unfinished
  | n + 1 => do
    if (← cond) = 0 then return .next
    else
      match ← body with
      | .next => whileNonzero cond body n
      | .returned v => return .returned v

end Eval

/-! ## Operators -/

/-- One for a comparison that holds, and zero for one that does not. -/
def ofTruth (holds : Bool) : Int := if holds then 1 else 0

/-- What an operator makes of two values. -/
def Token.Kind.apply (op : Token.Kind) (l r : Int) : Except Fault Int :=
  match op with
  | .plus => .ok (Word.wrap (l + r))
  | .minus => .ok (Word.wrap (l - r))
  | .star => .ok (Word.wrap (l * r))
  | .slash =>
    match Word.quotient? l r with
    | some q => .ok (Word.wrap q)
    | none => .error .divisionByZero
  | .percent =>
    match Word.quotient? l r with
    | some q => .ok (Word.wrap (l - r * q))
    | none => .error .divisionByZero
  | .eq => .ok (ofTruth (l == r))
  | .neq => .ok (ofTruth (l != r))
  | .lt => .ok (ofTruth (decide (l < r)))
  | .lte => .ok (ofTruth (decide (l ≤ r)))
  | .gt => .ok (ofTruth (decide (r < l)))
  | .gte => .ok (ofTruth (decide (r ≤ l)))
  | op => .error (.unsupportedOperator op)

/-- An operator fails because its divisor is zero, or because it is none. -/
theorem Token.Kind.fault_of_apply {op : Token.Kind} {l r : Int} {fault : Fault}
    (h : op.apply l r = .error fault) :
    (fault = .divisionByZero ∧ (op = .slash ∨ op = .percent)) ∨ fault = .unsupportedOperator op := by
  unfold apply at h
  split at h
  case h_4 | h_5 =>
    split at h <;> cases h
    simp
  all_goals cases h
  exact .inr rfl

/-- An operator at a place in the program. -/
def Eval.operate (span : Span) (op : Token.Kind) (l r : Int) : Eval Int :=
  match op.apply l r with
  | .ok v => pure v
  | .error fault => fail fault span

/-! ## Evaluation -/

/-- The name of the function that prints. -/
def printName : String := "print"

/-- Finds the function that a call means, and checks that it takes so many arguments. -/
def Eval.callee (span : Span) (name : String) (args : Nat) : Eval FunctionDef := fun m =>
  match m.callee? name with
  | none => fail (.unknownFunction name) span m
  | some f =>
    if f.params.length = args then .ok f m
    else fail (.arityMismatch f.name f.params.length args) span m

/-- There is no such function, it is found, or it takes another number of arguments. -/
theorem Eval.callee_cases (span : Span) (name : String) (args : Nat) (m : Machine) :
    (m.callee? name = none ∧ callee span name args m = fail (.unknownFunction name) span m) ∨
    ∃ f, m.callee? name = some f ∧
      ((f.params.length = args ∧ callee span name args m = .ok f m) ∨
       (f.params.length ≠ args ∧ callee span name args m =
         fail (.arityMismatch f.name f.params.length args) span m)) := by
  unfold callee
  cases m.callee? name with
  | none => exact .inl ⟨rfl, rfl⟩
  | some f =>
    by_cases hargs : f.params.length = args
    · exact .inr ⟨f, rfl, .inl ⟨hargs, if_pos hargs⟩⟩
    · exact .inr ⟨f, rfl, .inr ⟨hargs, if_neg hargs⟩⟩

/-- A function that is found is what the name calls. -/
theorem Eval.callee?_of_callee {span : Span} {name : String} {args : Nat} {f : FunctionDef}
    {m m' : Machine} (h : callee span name args m = .ok f m') : m.callee? name = some f := by
  rcases callee_cases span name args m with ⟨_, hnone⟩ | ⟨g, hg, ⟨_, hfound⟩ | ⟨_, hother⟩⟩
  · rw [hnone] at h
    cases h
  · rw [hfound] at h
    cases h
    exact hg
  · rw [hother] at h
    cases h

mutual

/-- The value of an expression. -/
def Expr.eval (limits : Limits) : Nat → Expr → Eval Int
  | 0, _ => Eval.tooDeep
  | _ + 1, .lit _ v => return v
  | _ + 1, .var span name => Eval.read span name
  | d + 1, .binary span left op right => do
    let l ← left.eval limits d
    let r ← right.eval limits d
    Eval.operate span op l r
  | d + 1, .call span name args => callFunction limits d span name args
  | _ + 1, .stray span label => Eval.fail (.unsupportedExpression label) span

/-- How a statement ends. -/
def Stmt.exec (limits : Limits) : Nat → Stmt → Eval Completion
  | 0, _ => Eval.tooDeep
  | d + 1, s => do
    Eval.tick limits s.span
    match s with
    | .block _ body => Eval.sequence (Stmt.exec limits d) body
    | .expr _ e =>
      let _ ← e.eval limits d
      return .next
    | .assign _ name value =>
      let v ← value.eval limits d
      Eval.assign name v
      return .next
    | .ifElse _ cond yes no =>
      if (← cond.eval limits d) = 0 then
        match no with
        | some s => s.exec limits d
        | none => return .next
      else yes.exec limits d
    | .loop _ cond body =>
      Eval.whileNonzero (cond.eval limits d) (body.exec limits d) (limits.clock + 1)
    | .ret _ none => return .returned 0
    | .ret _ (some e) =>
      let v ← e.eval limits d
      return .returned v
    | .stray span label => Eval.fail (.unsupportedStatement label) span

/-- The value of a call: the returned one, and zero where the body ends without a return. -/
def callFunction (limits : Limits) : Nat → Span → String → List Expr → Eval Int
  | 0, _, _, _ => Eval.tooDeep
  | d + 1, span, name, args =>
    if name = printName then
      match args with
      | [e] => do
        let v ← e.eval limits d
        Eval.emit v
        return 0
      | _ => Eval.fail (.printArity args.length) span
    else do
      let f ← Eval.callee span name args.length
      let vs ← Eval.each (Expr.eval limits d) args
      match ← Eval.within ⟨f.name, .ofPairs f.params vs⟩ (f.body.exec limits d) with
      | .next => return 0
      | .returned v => return v

end

end MiniLang
