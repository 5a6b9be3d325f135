/-
  The statements that a run begins.

  A run is looked at through a ghost log: the states in which it begins its statements, one after
  the other.  The log is read off the evaluator itself, which says what the state is in between.

  1. **Logs** — `Log.thenOf` puts the log of what follows behind the log of a computation that got
     through, and `Log.each`, `Log.sequence`, `Log.whileNonzero` and `Log.within` are the logs of
     the computations of the same names.
  2. **Begun** — `Expr.begun`, `Stmt.begun` and `callBegun` are the logs of the evaluator, and
     `Program.begun` is the one of a run.
  3. **Faithfulness** — `Logs x log`: the log has one entry for each step that `x` counts, whichever
     way it ends; the `i`-th entry is a state after `i` more steps; and what was printed at the
     start and at every entry begins what is printed in the end.
-/
import MiniLang.Machine.Run

namespace MiniLang

/-- The states in which statements begin, in their order, for a computation from some state. -/
abbrev Log := Machine → List Machine

namespace Log

variable {α : Type}

/-- No statement begins. -/
def nothing : Log := fun _ => []

/-- One statement begins, here and now. -/
def here : Log := fun m => [m]

/-- What `log` tells of `x`, and then what `next` tells of its value if there is one. -/
def thenOf (log : Log) (x : Eval α) (next : α → Log) : Log := fun m =>
  log m ++
    match x m with
    | .ok a m' => next a m'
    | .error _ _ => []

theorem thenOf_of_ok {log : Log} {x : Eval α} {next : α → Log} {m m' : Machine} {a : α} :
    x m = .ok a m' → thenOf log x next m = log m ++ next a m' := by
  intro h
  simp only [thenOf, h]

theorem thenOf_of_error {log : Log} {x : Eval α} {next : α → Log} {m m' : Machine} {halt : Halt} :
    x m = .error halt m' → thenOf log x next m = log m := by
  intro h
  simp only [thenOf, h, List.append_nil]

theorem thenOf_nothing (log : Log) (x : Eval α) : thenOf log x (fun _ => nothing) = log := by
  funext m
  cases h : x m with
  | error halt m' => exact thenOf_of_error h
  | ok a m' => rw [thenOf_of_ok h, nothing, List.append_nil]

/-- Inside a live call. -/
def within (record : Record) (log : Log) : Log := fun m =>
  log { m with stack := record :: m.stack }

/-- One expression after the other. -/
def each (eval : Expr → Eval Int) (log : Expr → Log) : List Expr → Log
  | [] => nothing
  | e :: rest => thenOf (log e) (eval e) fun _ => each eval log rest

/-- One statement after the other, up to one that returns. -/
def sequence (exec : Stmt → Eval Completion) (log : Stmt → Log) : List Stmt → Log
  | [] => nothing
  | s :: rest => thenOf (log s) (exec s) fun
    | .next => sequence exec log rest
    | .returned _ => nothing

/-- Round after round, up to one that returns. -/
def whileNonzero (cond : Eval Int) (condLog : Log) (body : Eval Completion) (bodyLog : Log) :
    Nat → Log
  | 0 => nothing
  | n + 1 => thenOf condLog cond fun v =>
    if v = 0 then nothing
    else thenOf bodyLog body fun
      | .next => whileNonzero cond condLog body bodyLog n
      | .returned _ => nothing

end Log

/-! ## The log of the evaluator -/

mutual

/-- The statements begun for the value of an expression. -/
def Expr.begun (limits : Limits) : Nat → Expr → Log
  | 0, _ => .nothing
  | d + 1, .binary _ left _ right =>
    .thenOf (left.begun limits d) (left.eval limits d) fun _ => right.begun limits d
  | d + 1, .call span name args => callBegun limits d span name args
  | _ + 1, _ => .nothing

/-- The statements begun for a statement, itself included. -/
def Stmt.begun (limits : Limits) : Nat → Stmt → Log
  | 0, _ => .nothing
  | d + 1, s => .thenOf .here (Eval.tick limits s.span) fun _ =>
    match s with
    | .block _ body => .sequence (Stmt.exec limits d) (Stmt.begun limits d) body
    | .expr _ e => e.begun limits d
    | .assign _ _ value => value.begun limits d
    | .ifElse _ cond yes no => .thenOf (cond.begun limits d) (cond.eval limits d) fun v =>
      if v = 0 then
        match no with
        | some s => s.begun limits d
        | none => .nothing
      else yes.begun limits d
    | .loop _ cond body =>
      .whileNonzero (cond.eval limits d) (cond.begun limits d)
        (body.exec limits d) (body.begun limits d) (limits.clock + 1)
    | .ret _ none => .nothing
    | .ret _ (some e) => e.begun limits d
    | .stray .. => .nothing

/-- The statements begun for a call, in its arguments and in its body. -/
def callBegun (limits : Limits) : Nat → Span → String → List Expr → Log
  | 0, _, _, _ => .nothing
  | d + 1, span, name, args =>
    if name = printName then
      match args with
      | [e] => e.begun limits d
      | _ => .nothing
    else
      .thenOf .nothing (Eval.callee span name args.length) fun f =>
        .thenOf (.each (Expr.eval limits d) (Expr.begun limits d) args)
          (Eval.each (Expr.eval limits d) args) fun vs =>
            .within ⟨f.name, .ofPairs f.params vs⟩ (f.body.begun limits d)

end

/-- The states in which a run begins its statements, the first one first. -/
def Program.begun (limits : Limits) (program : Program) : List Machine :=
  Log.within mainRecord (program.body.begun limits limits.frames)
    (Machine.empty.define program.functions)

/-! ## Computations one after the other -/

namespace Eval

variable {α β : Type} {x : Eval α} {f : α → Eval β} {m m' : Machine} {a : α} {halt : Halt}

theorem bind_of_ok : x m = .ok a m' → (x >>= f) m = f a m' := by
  intro h
  simp only [bind, EStateM.bind, h]

theorem bind_of_error : x m = .error halt m' → (x >>= f) m = .error halt m' := by
  intro h
  simp only [bind, EStateM.bind, h]

/-- The state that a computation leaves, whichever way it ends. -/
def after (x : Eval α) (m : Machine) : Machine :=
  match x m with
  | .ok _ m' => m'
  | .error _ m' => m'

theorem after_of_ok : x m = .ok a m' → x.after m = m' := by
  intro h
  simp only [after, h]

theorem after_of_error : x m = .error halt m' → x.after m = m' := by
  intro h
  simp only [after, h]

theorem after_bind_of_ok : x m = .ok a m' → (x >>= f).after m = (f a).after m' := by
  intro h
  simp only [after, bind_of_ok h]

theorem after_bind_of_error : x m = .error halt m' → (x >>= f).after m = x.after m := by
  intro h
  simp only [after, bind_of_error h, h]

theorem within_of_ok {record : Record} (h : x { m with stack := record :: m.stack } = .ok a m') :
    within record x m = .ok a { m' with stack := m'.stack.tail } := by
  simp only [within, h]

theorem within_of_error {record : Record}
    (h : x { m with stack := record :: m.stack } = .error halt m') :
    within record x m = .error halt { m' with stack := m'.stack.tail } := by
  simp only [within, h]

/-- Whatever it does inside the call, it leaves the records as `tail` puts them. -/
theorem after_within : ∀ (record : Record) (x : Eval α) (m : Machine),
    (within record x).after m =
      { x.after { m with stack := record :: m.stack } with
        stack := (x.after { m with stack := record :: m.stack }).stack.tail } := by
  intro record x m
  cases h : x { m with stack := record :: m.stack } with
  | ok a m' => rw [after_of_ok (within_of_ok h), after_of_ok h]
  | error halt m' => rw [after_of_error (within_of_error h), after_of_error h]

/-- A step goes through where the clock leaves time for it. -/
theorem tick_of_lt {limits : Limits} (h : m.steps < limits.clock) (span : Span) :
    tick limits span m = .ok () { m with steps := m.steps + 1 } := by
  rcases tick_cases limits span m with ⟨-, hok⟩ | ⟨hle, -⟩ | ⟨hle, -⟩
  · exact hok
  · omega
  · omega

/-- A step is counted also where it exceeds the clock. -/
theorem after_tick (limits : Limits) (span : Span) (m : Machine) :
    (tick limits span).after m = { m with steps := m.steps + 1 } := by
  rcases tick_cases limits span m with ⟨_, h⟩ | ⟨_, _, h⟩ | ⟨_, _, h⟩
  · exact after_of_ok h
  · exact after_of_error h
  · exact after_of_error h

/-! ## Rows -/

/-- One computation and then, if it falls through, the other one. -/
def andThen (x y : Eval Completion) : Eval Completion := do
  match ← x with
  | .next => y
  | .returned v => return .returned v

theorem andThen_of_next {x y : Eval Completion} {m m' : Machine} (h : x m = .ok .next m') :
    andThen x y m = y m' := bind_of_ok h

theorem andThen_of_returned {x y : Eval Completion} {m m' : Machine} {v : Int}
    (h : x m = .ok (.returned v) m') : andThen x y m = .ok (.returned v) m' := bind_of_ok h

theorem sequence_cons (exec : Stmt → Eval Completion) (s : Stmt) (rest : List Stmt) :
    sequence exec (s :: rest) = andThen (exec s) (sequence exec rest) := rfl

/-- A row of statements is its first part and then the other one. -/
theorem sequence_append (exec : Stmt → Eval Completion) (before behind : List Stmt) :
    sequence exec (before ++ behind) = andThen (sequence exec before) (sequence exec behind) := by
  induction before with
  | nil => simp only [List.nil_append, sequence, andThen, pure_bind]
  | cons s rest ih =>
    simp only [List.cons_append, sequence_cons, ih, andThen, bind_assoc]
    congr 1
    funext completion
    cases completion with
    | next => rfl
    | returned v => simp only [pure_bind]

/-- A row of one statement is that statement. -/
theorem sequence_single (exec : Stmt → Eval Completion) (s : Stmt) :
    sequence exec [s] = exec s := by
  rw [sequence]
  refine Eq.trans ?_ (bind_pure (exec s))
  congr 1
  funext completion
  cases completion with
  | next => rfl
  | returned v => rfl

/-- The values of a row with one expression more. -/
theorem each_concat {eval : Expr → Eval Int} {e : Expr} {v : Int} {m' m'' : Machine} :
    ∀ {es : List Expr} {vs : List Int} {m : Machine}, each eval es m = .ok vs m' →
      eval e m' = .ok v m'' → each eval (es ++ [e]) m = .ok (vs ++ [v]) m'' := by
  intro es
  induction es with
  | nil =>
    intro vs m hes he
    cases hes
    rw [List.nil_append, each, bind_of_ok he]
    rfl
  | cons e' rest ih =>
    intro vs m hes he
    rw [each] at hes
    rw [List.cons_append, each]
    cases he' : eval e' m with
    | error halt m₁ => rw [bind_of_error he'] at hes; cases hes
    | ok v' m₁ =>
      rw [bind_of_ok he'] at hes ⊢
      cases hrest : each eval rest m₁ with
      | error halt m₂ => rw [bind_of_error hrest] at hes; cases hes
      | ok vs' m₂ =>
        rw [bind_of_ok hrest] at hes
        cases hes
        rw [bind_of_ok (ih hrest he)]
        rfl

end Eval

/-! ## Logs that tell what happens -/

/-- A log is faithful to a computation. -/
structure Logs {α : Type} (x : Eval α) (log : Log) : Prop where
  /-- There is one entry for each step. -/
  steps : ∀ m, (x.after m).steps = m.steps + (log m).length
  /-- The entries stand in the order of the steps. -/
  entry : ∀ m i b, (log m)[i]? = some b → b.steps = m.steps + i
  /-- What was printed before stays. -/
  printed : ∀ m, m.printed.toList <+: (x.after m).printed.toList
  /-- What was printed at an entry stays. -/
  passed : ∀ m, ∀ b ∈ log m, b.printed.toList <+: (x.after m).printed.toList

namespace Logs

variable {α β : Type} {x : Eval α} {log : Log}

theorem prefix_of_eq {vs ws : List Int} : vs = ws → vs <+: ws := by
  rintro rfl
  exact List.prefix_refl vs

/-- A computation that counts no step and takes nothing back has nothing to log. -/
theorem of_quiet : (∀ m, (x.after m).steps = m.steps) →
    (∀ m, m.printed.toList <+: (x.after m).printed.toList) → Logs x .nothing := by
  intro hsteps hprinted
  exact {
    steps := fun m => by rw [hsteps m]; rfl
    entry := fun m i b h => by simp [Log.nothing] at h
    printed := hprinted
    passed := fun m b h => by simp [Log.nothing] at h }

/-- A computation that leaves the state alone has nothing to log. -/
theorem of_still : (∀ m, x.after m = m) → Logs x .nothing := by
  intro h
  apply of_quiet
  · intro m
    rw [h m]
  · intro m
    exact prefix_of_eq (by rw [h m])

/-- A step is one entry, also where it exceeds the clock. -/
theorem tick : ∀ (limits : Limits) (span : Span), Logs (Eval.tick limits span) .here := by
  intro limits span
  have hafter := Eval.after_tick limits span
  exact {
    steps := fun m => by rw [hafter m]; rfl
    entry := fun m i b h => by
      cases i with
      | zero => simp only [Log.here, List.getElem?_cons_zero, Option.some.injEq] at h
                rw [← h, Nat.add_zero]
      | succ i => simp [Log.here] at h
    printed := fun m => prefix_of_eq (by rw [hafter m])
    passed := fun m b h => prefix_of_eq (by rw [hafter m, List.mem_singleton.mp h]) }

/-- Where `x` fails nothing follows it, and otherwise `f` goes on from the state it leaves. -/
theorem thenOf {f : α → Eval β} {next : α → Log} :
    Logs x log → (∀ a, Logs (f a) (next a)) → Logs (x >>= f) (.thenOf log x next) := by
  intro hx hf
  constructor
  case steps =>
    intro m
    have hsteps := hx.steps m
    cases h : x m with
    | error halt m' =>
      rw [Eval.after_bind_of_error h, Log.thenOf_of_error h]
      exact hsteps
    | ok a m' =>
      rw [Eval.after_of_ok h] at hsteps
      rw [Eval.after_bind_of_ok h, Log.thenOf_of_ok h, (hf a).steps m', hsteps,
        List.length_append, Nat.add_assoc]
  case entry =>
    intro m i b hb
    have hsteps := hx.steps m
    cases h : x m with
    | error halt m' =>
      rw [Log.thenOf_of_error h] at hb
      exact hx.entry m i b hb
    | ok a m' =>
      rw [Eval.after_of_ok h] at hsteps
      rw [Log.thenOf_of_ok h] at hb
      -- the entry is one of `x`, or one of what follows it from as many steps on as `x` counts
      by_cases hi : i < (log m).length
      · rw [List.getElem?_append_left hi] at hb
        exact hx.entry m i b hb
      · rw [List.getElem?_append_right (Nat.le_of_not_lt hi)] at hb
        have := (hf a).entry m' _ b hb
        omega
  case printed =>
    intro m
    have hprinted := hx.printed m
    cases h : x m with
    | error halt m' =>
      rw [Eval.after_bind_of_error h]
      exact hprinted
    | ok a m' =>
      rw [Eval.after_of_ok h] at hprinted
      rw [Eval.after_bind_of_ok h]
      exact hprinted.trans ((hf a).printed m')
  case passed =>
    intro m b hb
    have hpassed := hx.passed m b
    cases h : x m with
    | error halt m' =>
      rw [Log.thenOf_of_error h] at hb
      rw [Eval.after_bind_of_error h]
      exact hpassed hb
    | ok a m' =>
      rw [Eval.after_of_ok h] at hpassed
      rw [Log.thenOf_of_ok h] at hb
      rw [Eval.after_bind_of_ok h]
      rcases List.mem_append.mp hb with hb | hb
      · exact (hpassed hb).trans ((hf a).printed m')
      · exact (hf a).passed m' b hb

/-- Work after the last statement counts nothing. -/
theorem andThen {f : α → Eval β} : Logs x log → (∀ a, Logs (f a) .nothing) →
    Logs (x >>= f) log := by
  intro hx hf
  rw [← Log.thenOf_nothing log x]
  exact thenOf hx hf

theorem within : ∀ (record : Record), Logs x log →
    Logs (Eval.within record x) (.within record log) := by
  intro record hx
  constructor
  case steps =>
    intro m
    rw [Eval.after_within]
    exact hx.steps { m with stack := record :: m.stack }
  case entry =>
    intro m i b hb
    exact hx.entry { m with stack := record :: m.stack } i b hb
  case printed =>
    intro m
    rw [Eval.after_within]
    exact hx.printed { m with stack := record :: m.stack }
  case passed =>
    intro m b hb
    rw [Eval.after_within]
    exact hx.passed { m with stack := record :: m.stack } b hb

/-! ## The primitive computations -/

theorem pure : ∀ (a : α), Logs (pure a) .nothing := by
  intro a
  exact of_still fun m => rfl

theorem fail : ∀ (fault : Fault) (span : Span), Logs (Eval.fail (α := α) fault span) .nothing := by
  intro fault span
  exact of_still fun m => rfl

theorem throw : ∀ (halt : Halt), Logs (throw halt : Eval α) .nothing := by
  intro halt
  exact of_still fun m => rfl

theorem read : ∀ (span : Span) (name : String), Logs (Eval.read span name) .nothing := by
  intro span name
  apply of_still
  intro m
  unfold Eval.after Eval.read
  cases m.read? name with
  | some v => rfl
  | none => rfl

theorem operate : ∀ (span : Span) (op : Token.Kind) (l r : Int),
    Logs (Eval.operate span op l r) .nothing := by
  intro span op l r
  unfold Eval.operate
  cases op.apply l r with
  | ok v => exact pure v
  | error fault => exact fail fault span

theorem callee : ∀ (span : Span) (name : String) (args : Nat),
    Logs (Eval.callee span name args) .nothing := by
  intro span name args
  apply of_still
  intro m
  unfold Eval.after Eval.callee
  cases m.callee? name with
  | none => rfl
  | some f =>
    by_cases h : f.params.length = args
    · simp only [h, if_pos]
    · simp only [h, if_false, Eval.fail]

theorem assign : ∀ (name : String) (v : Int), Logs (Eval.assign name v) .nothing := by
  intro name v
  have hafter : ∀ m, (Eval.assign name v).after m = m.assign name v := fun m => rfl
  apply of_quiet
  · intro m
    rw [hafter m, Machine.assign]
    split <;> rfl
  · intro m
    rw [hafter m, Machine.assign]
    split <;> exact prefix_of_eq rfl

theorem emit : ∀ (v : Int), Logs (Eval.emit v) .nothing := by
  intro v
  have hafter : ∀ m, (Eval.emit v).after m = { m with printed := m.printed.push v } := fun m => rfl
  apply of_quiet
  · intro m
    rw [hafter m]
  · intro m
    rw [hafter m, Array.toList_push]
    exact List.prefix_append _ _

/-! ## The helpers of the evaluator -/

theorem each {eval : Expr → Eval Int} {logOf : Expr → Log} :
    (∀ e, Logs (eval e) (logOf e)) →
    ∀ es, Logs (Eval.each eval es) (.each eval logOf es) := by
  intro h es
  induction es with
  | nil => exact pure []
  | cons e rest ih =>
    rw [Eval.each, Log.each]
    apply thenOf (h e)
    intro v
    exact andThen ih fun vs => pure (v :: vs)

theorem sequence {exec : Stmt → Eval Completion} {logOf : Stmt → Log} :
    (∀ s, Logs (exec s) (logOf s)) →
    ∀ body, Logs (Eval.sequence exec body) (.sequence exec logOf body) := by
  intro h body
  induction body with
  | nil => exact pure Completion.next
  | cons s rest ih =>
    rw [Eval.sequence, Log.sequence]
    apply thenOf (h s)
    intro completion
    cases completion with
    | next => exact ih
    | returned v => exact pure (Completion.returned v)

theorem whileNonzero {cond : Eval Int} {condLog : Log} {body : Eval Completion} {bodyLog : Log} :
    Logs cond condLog → Logs body bodyLog →
    ∀ n, Logs (Eval.whileNonzero cond body n) (.whileNonzero cond condLog body bodyLog n) := by
  intro hcond hbody n
  induction n with
  | zero => exact throw .unfinished
  | succ n ih =>
    rw [Eval.whileNonzero, Log.whileNonzero]
    apply thenOf hcond
    intro v
    by_cases hv : v = 0
    · simp only [hv, if_true]
      exact pure Completion.next
    · simp only [hv, if_false]
      apply thenOf hbody
      intro completion
      cases completion with
      | next => exact ih
      | returned v => exact pure (Completion.returned v)

end Logs

/-! ## The log of the evaluator is faithful -/

/-- The logs of the evaluator with so many frames are faithful. -/
structure EvaluatorLogs (limits : Limits) (d : Nat) : Prop where
  eval : ∀ e : Expr, Logs (e.eval limits d) (e.begun limits d)
  exec : ∀ s : Stmt, Logs (s.exec limits d) (s.begun limits d)
  call : ∀ span name args,
    Logs (callFunction limits d span name args) (callBegun limits d span name args)

theorem eval_logs {limits : Limits} {d : Nat} : EvaluatorLogs limits d →
    ∀ e : Expr, Logs (e.eval limits (d + 1)) (e.begun limits (d + 1)) := by
  intro h e
  cases e with
  | lit span v => exact .pure v
  | var span name => exact .read span name
  | stray span label => exact .fail (.unsupportedExpression label) span
  | call span name args => exact h.call span name args
  | binary span left op right =>
    rw [Expr.eval, Expr.begun]
    apply Logs.thenOf (h.eval left)
    intro l
    exact .andThen (h.eval right) fun r => .operate span op l r

theorem exec_logs {limits : Limits} {d : Nat} : EvaluatorLogs limits d →
    ∀ s : Stmt, Logs (s.exec limits (d + 1)) (s.begun limits (d + 1)) := by
  intro h s
  unfold Stmt.exec Stmt.begun
  apply Logs.thenOf (.tick limits s.span)
  intro _
  cases s with
  | block span body => exact .sequence h.exec body
  | expr span e => exact .andThen (h.eval e) fun _ => .pure Completion.next
  | assign span name value =>
    apply Logs.andThen (h.eval value)
    intro v
    exact .andThen (.assign name v) fun _ => .pure Completion.next
  | ifElse span cond yes no =>
    apply Logs.thenOf (h.eval cond)
    intro v
    by_cases hv : v = 0
    · simp only [hv, if_true]
      cases no with
      | some s => exact h.exec s
      | none => exact .pure Completion.next
    · simp only [hv, if_false]
      exact h.exec yes
  | loop span cond body => exact .whileNonzero (h.eval cond) (h.exec body) _
  | ret span value =>
    cases value with
    | none => exact .pure (Completion.returned 0)
    | some e => exact .andThen (h.eval e) fun v => .pure (Completion.returned v)
  | stray span label => exact .fail (.unsupportedStatement label) span

theorem call_logs {limits : Limits} {d : Nat} : EvaluatorLogs limits d →
    ∀ span name args, Logs (callFunction limits (d + 1) span name args)
      (callBegun limits (d + 1) span name args) := by
  intro h span name args
  unfold callFunction callBegun
  by_cases hname : name = printName
  · rw [if_pos hname, if_pos hname]
    match args with
    | [] => exact .fail (.printArity 0) span
    | [e] =>
      apply Logs.andThen (h.eval e)
      intro v
      exact .andThen (.emit v) fun _ => .pure 0
    | e :: e' :: rest => exact .fail (.printArity (rest.length + 2)) span
  · rw [if_neg hname, if_neg hname]
    apply Logs.thenOf (.callee span name args.length)
    intro f
    apply Logs.thenOf (.each h.eval args)
    intro vs
    apply Logs.andThen (.within _ (h.exec f.body))
    intro completion
    cases completion with
    | next => exact .pure 0
    | returned v => exact .pure v

/-- By induction on the frames: what is logged is what happens. -/
theorem evaluator_logs : ∀ (limits : Limits) (d : Nat), EvaluatorLogs limits d := by
  intro limits d
  induction d with
  | zero =>
    exact {
      eval := fun e => by rw [Expr.eval, Expr.begun]; exact .throw .tooDeep
      exec := fun s => by rw [Stmt.exec, Stmt.begun]; exact .throw .tooDeep
      call := fun span name args => by
        rw [callFunction, callBegun]; exact .throw .tooDeep }
  | succ d ih => exact { eval := eval_logs ih, exec := exec_logs ih, call := call_logs ih }

/-- A statement that ends has counted a step, its own. -/
theorem exec_steps_lt {limits : Limits} {d : Nat} {s : Stmt} {m m' : Machine} {c : Completion} :
    s.exec limits d m = .ok c m' → m.steps < m'.steps := by
  intro h
  have hsteps := ((evaluator_logs limits d).exec s).steps m
  rw [Eval.after_of_ok h] at hsteps
  -- the log of a statement begins with the statement itself
  cases d with
  | zero => rw [Stmt.exec] at h; cases h
  | succ d =>
    have hlength : 1 ≤ (s.begun limits (d + 1) m).length := by
      unfold Stmt.begun
      rw [Log.thenOf, Log.here, List.length_append]
      exact Nat.le_add_right 1 _
    omega

end MiniLang
