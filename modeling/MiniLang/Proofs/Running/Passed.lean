/-
  The states that a run passes.

  A run is one state after the other, and each comes of the one before it by one change: a statement
  counts its step, gives a name a value, a value is printed, a call is entered, or it is left.

  1. **Logs of states** — `Program.passed` lists the states of a run in their order, read off the
     evaluator like the log of the statements begun.
  2. **What a task does itself** — `Task.Does`: the changes that are its own, and not those of a task
     that it hands on.  `Task.Fails`: the failures that are its own.
  3. **Accounts** — `Accounts limits d t m₀ x log m`: from `m` on, `log` is a path of changes to the
     state that `x` leaves, each done by a task reached from `t`; and if `x` fails, such a task
     fails.  By induction on the frames everything that the evaluator does is accounted for.
  4. **Runs** — the first state passed is the one in which the run starts and the last one that which
     it leaves, one change leads from each to the next (`passed_next`), and every failure is that of
     a task the run came to (`origin_of_run`).
  5. **Nothing is missed** — whatever task a run comes to begins in a state passed
     (`mem_passed_of_reaches`).
-/
import MiniLang.Proofs.Running.History
import MiniLang.Proofs.Running.Reached

namespace MiniLang

/-! ## Logs of states -/

namespace Log

variable {α : Type}

/-- The state that a computation leaves. -/
def left (x : Eval α) : Log := fun m => [x.after m]

/-- The state in a call that is entered, those that follow in it, and the one in which it is
    left. -/
def call (record : Record) (log : Log) (x : Eval α) : Log := fun m =>
  { m with stack := record :: m.stack } :: within record log m ++ [(Eval.within record x).after m]

end Log

mutual

/-- The states passed for the value of an expression. -/
def Expr.passed (limits : Limits) : Nat → Expr → Log
  | 0, _ => .nothing
  | d + 1, .binary _ left _ right =>
    .thenOf (left.passed limits d) (left.eval limits d) fun _ => right.passed limits d
  | d + 1, .call span name args => callPassed limits d span name args
  | _ + 1, _ => .nothing

/-- The states passed for a statement. -/
def Stmt.passed (limits : Limits) : Nat → Stmt → Log
  | 0, _ => .nothing
  | d + 1, s => .thenOf (.left (Eval.tick limits s.span)) (Eval.tick limits s.span) fun _ =>
    match s with
    | .block _ body => .sequence (Stmt.exec limits d) (Stmt.passed limits d) body
    | .expr _ e => e.passed limits d
    | .assign _ name value => .thenOf (value.passed limits d) (value.eval limits d) fun v =>
      .left (Eval.assign name v)
    | .ifElse _ cond yes no => .thenOf (cond.passed limits d) (cond.eval limits d) fun v =>
      if v = 0 then
        match no with
        | some s => s.passed limits d
        | none => .nothing
      else yes.passed limits d
    | .loop _ cond body =>
      .whileNonzero (cond.eval limits d) (cond.passed limits d)
        (body.exec limits d) (body.passed limits d) (limits.clock + 1)
    | .ret _ none => .nothing
    | .ret _ (some e) => e.passed limits d
    | .stray .. => .nothing

/-- The states passed for a call, in its arguments and in its body. -/
def callPassed (limits : Limits) : Nat → Span → String → List Expr → Log
  | 0, _, _, _ => .nothing
  | d + 1, span, name, args =>
    if name = printName then
      match args with
      | [e] => .thenOf (e.passed limits d) (e.eval limits d) fun v => .left (Eval.emit v)
      | _ => .nothing
    else
      .thenOf .nothing (Eval.callee span name args.length) fun f =>
        .thenOf (.each (Expr.eval limits d) (Expr.passed limits d) args)
          (Eval.each (Expr.eval limits d) args) fun vs =>
            .call ⟨f.name, .ofPairs f.params vs⟩ (f.body.passed limits d) (f.body.exec limits d)

end

/-- The states passed behind the one in which a task begins. -/
def Task.passed (limits : Limits) (d : Nat) : Task → Log
  | .expr e => e.passed limits d
  | .stmt s => s.passed limits d
  | .call span name args => callPassed limits d span name args

/-- The states that a run passes, the first one first. -/
def Program.passed (limits : Limits) (p : Program) : List Machine :=
  p.start :: Log.call mainRecord (p.body.passed limits limits.frames)
    (p.body.exec limits limits.frames) p.start

/-! ## What a task does itself -/

/-- A task that has `d + 1` frames and begins in some state changes a state to another one. -/
inductive Task.Does (limits : Limits) (d : Nat) : Task → Machine → Machine → Machine → Prop
  | count {s m} : Does limits d (.stmt s) m m { m with steps := m.steps + 1 }
  | assign {span name e m m₁ m' v} : Eval.tick limits span m = .ok () m₁ →
      e.eval limits d m₁ = .ok v m' →
      Does limits d (.stmt (.assign span name e)) m m' (m'.assign name v)
  | print {span e m m' v} : e.eval limits d m = .ok v m' →
      Does limits d (.call span printName [e]) m m' { m' with printed := m'.printed.push v }
  | enter {span name args body m m'} :
      (Task.call span name args).Begins limits d m (.stmt body) m' →
      Does limits d (.call span name args) m { m' with stack := m'.stack.tail } m'
  | leave {span name args body m m'} :
      (Task.call span name args).Begins limits d m (.stmt body) m' →
      Does limits d (.call span name args) m ((body.exec limits d).after m')
        { (body.exec limits d).after m' with
          stack := ((body.exec limits d).after m').stack.tail }

/-- A task that has `d + 1` frames and begins in some state fails at a place and in a state. -/
inductive Task.Fails (limits : Limits) (d : Nat) : Task → Machine → Fault → Span → Machine → Prop
  | read {span name m} : m.read? name = none →
      Fails limits d (.expr (.var span name)) m (.undefinedVariable name) span m
  | operate {span left op right m m₁ m' l r fault} : left.eval limits d m = .ok l m₁ →
      right.eval limits d m₁ = .ok r m' → op.apply l r = .error fault →
      Fails limits d (.expr (.binary span left op right)) m fault span m'
  | strayExpr {span label m} :
      Fails limits d (.expr (.stray span label)) m (.unsupportedExpression label) span m
  | stepLimit {s m} : limits.budget.isSome = true → limits.clock ≤ m.steps →
      Fails limits d (.stmt s) m .stepLimit s.span { m with steps := m.steps + 1 }
  | strayStmt {span label m m'} : Eval.tick limits span m = .ok () m' →
      Fails limits d (.stmt (.stray span label)) m (.unsupportedStatement label) span m'
  | print {span args m} : args.length ≠ 1 →
      Fails limits d (.call span printName args) m (.printArity args.length) span m
  | callee {span name args m} : name ≠ printName → m.callee? name = none →
      Fails limits d (.call span name args) m (.unknownFunction name) span m
  | arity {span name args m f} : name ≠ printName → m.callee? name = some f →
      f.params.length ≠ args.length →
      Fails limits d (.call span name args) m
        (.arityMismatch f.name f.params.length args.length) span m

/-- A task that a task with `d` frames comes to changes one state to the other. -/
def Task.Changes (limits : Limits) (d : Nat) (t : Task) (m₀ m m' : Machine) : Prop :=
  ∃ d' t' m₁, t.Reaches limits d m₀ (d' + 1) t' m₁ ∧ t'.Does limits d' m₁ m m'

/-- A task that a task with `d` frames comes to fails, inside the calls that are told.  Leaving them
    does not change the globals. -/
def Task.Origin (limits : Limits) (d : Nat) (t : Task) (m₀ : Machine) (fault : Fault) (span : Span)
    (calls : List String) (m : Machine) : Prop :=
  ∃ d' t' m₁ m', t.Reaches limits d m₀ (d' + 1) t' m₁ ∧ t'.Fails limits d' m₁ fault span m' ∧
    calls = m'.calls ∧ m.globals = m'.globals

/-! ## Paths -/

/-- Some states, each related to the one before it, that lead from one state to another. -/
inductive Path (R : Machine → Machine → Prop) : Machine → List Machine → Machine → Prop
  | nil {m} : Path R m [] m
  | cons {m m₁ ms m'} : R m m₁ → Path R m₁ ms m' → Path R m (m₁ :: ms) m'

namespace Path

variable {R S : Machine → Machine → Prop} {m m₁ m' : Machine} {ms ns : List Machine}

theorem single (h : R m m') : Path R m [m'] m' := .cons h .nil

theorem append (h : Path R m ms m₁) (hrest : Path R m₁ ns m') : Path R m (ms ++ ns) m' := by
  induction h with
  | nil => exact hrest
  | cons hfirst _ ih => exact .cons hfirst (ih hrest)

theorem mono (hRS : ∀ a b, R a b → S a b) (h : Path R m ms m') : Path S m ms m' := by
  induction h with
  | nil => exact .nil
  | cons hfirst _ ih => exact .cons (hRS _ _ hfirst) ih

theorem last (h : Path R m ms m') : (m :: ms).getLast? = some m' := by
  induction h with
  | nil => rfl
  | cons _ _ ih => rw [List.getLast?_cons_cons, ih]

theorem last_mem (h : Path R m ms m') : m' ∈ m :: ms := List.mem_of_getLast? h.last

/-- Each state is related to the next one. -/
theorem next (h : Path R m ms m') : ∀ {i : Nat} {a b : Machine}, (m :: ms)[i]? = some a →
    (m :: ms)[i + 1]? = some b → R a b := by
  induction h with
  | nil =>
    intro i a b _ hb
    cases hb
  | cons hfirst _ ih =>
    intro i a b ha hb
    cases i with
    | zero =>
      cases ha
      cases hb
      exact hfirst
    | succ i => exact ih ha hb

end Path

/-! ## Accounts -/

/-- From `m` on, `log` leads to the state that `x` leaves by changes of tasks that `t` comes to, and
    where `x` fails, it is such a task that fails. -/
structure Accounts (limits : Limits) (d : Nat) (t : Task) (m₀ : Machine) {α : Type} (x : Eval α)
    (log : Log) (m : Machine) : Prop where
  path : Path (t.Changes limits d m₀) m (log m) (x.after m)
  origin : ∀ fault span calls m', x m = .error (.failed fault span calls) m' →
    t.Origin limits d m₀ fault span calls m'

namespace Accounts

variable {limits : Limits} {d : Nat} {t t' : Task} {m₀ m m' : Machine} {α β : Type}

theorem nothing {x : Eval α} (hx : Eval.Still x)
    (horigin : ∀ fault span calls m', x m = .error (.failed fault span calls) m' →
      t.Origin limits d m₀ fault span calls m') : Accounts limits d t m₀ x .nothing m := by
  refine ⟨?_, horigin⟩
  rw [hx m]
  exact .nil

/-- One change of the task itself. -/
theorem left {x : Eval α} {a : α} (hx : x m = .ok a m') (h : t.Does limits d m₀ m m') :
    Accounts limits (d + 1) t m₀ x (.left x) m := by
  constructor
  · rw [Log.left, Eval.after_of_ok hx]
    exact .single ⟨d, t, m₀, .here, h⟩
  · intro fault span calls m₁ hfail
    rw [hx] at hfail
    cases hfail

/-- A failure of the task itself. -/
theorem fail {fault : Fault} {span : Span} (h : t.Fails limits d m₀ fault span m) :
    Accounts limits (d + 1) t m₀ (Eval.fail fault span : Eval α) .nothing m := by
  refine nothing (Eval.still_fail fault span) ?_
  intro fault' span' calls m' hfail
  cases hfail
  exact ⟨d, t, m₀, m, .here, h, rfl, rfl⟩

/-- What is accounted for by a task that is handed on. -/
theorem begins {x : Eval α} {log : Log} {m₁ : Machine} (hfirst : t.Begins limits d m₀ t' m₁)
    (h : Accounts limits d t' m₁ x log m) : Accounts limits (d + 1) t m₀ x log m where
  path := h.path.mono fun _ _ ⟨d', t'', m₂, hreaches, hdoes⟩ =>
    ⟨d', t'', m₂, .of_begins hfirst hreaches, hdoes⟩
  origin := by
    intro fault span calls m' hfail
    obtain ⟨d', t'', m₂, a, hreaches, hfails, hcalls⟩ := h.origin fault span calls m' hfail
    exact ⟨d', t'', m₂, a, .of_begins hfirst hreaches, hfails, hcalls⟩

theorem thenOf {x : Eval α} {log : Log} {f : α → Eval β} {next : α → Log}
    (hx : Accounts limits d t m₀ x log m)
    (hf : ∀ a m', x m = .ok a m' → Accounts limits d t m₀ (f a) (next a) m') :
    Accounts limits d t m₀ (x >>= f) (.thenOf log x next) m := by
  have hpath := hx.path
  constructor
  · cases h : x m with
    | error halt m' =>
      rw [Log.thenOf_of_error h, Eval.after_bind_of_error h]
      exact hpath
    | ok a m' =>
      rw [Eval.after_of_ok h] at hpath
      rw [Log.thenOf_of_ok h, Eval.after_bind_of_ok h]
      exact hpath.append (hf a m' h).path
  · intro fault span calls m₁ hfail
    cases h : x m with
    | error halt m' =>
      rw [Eval.bind_of_error h] at hfail
      cases hfail
      exact hx.origin fault span calls m₁ h
    | ok a m' =>
      rw [Eval.bind_of_ok h] at hfail
      exact (hf a m' h).origin fault span calls m₁ hfail

theorem pure (a : α) : Accounts limits d t m₀ (pure a) .nothing m := by
  refine nothing (Eval.still_pure a) ?_
  intro fault span calls m' h
  cases h

/-- Stopping for want of frames or of time is no failure. -/
theorem throw {halt : Halt} (hhalt : halt = .tooDeep ∨ halt = .unfinished) :
    Accounts limits d t m₀ (throw halt : Eval α) .nothing m := by
  refine nothing (Eval.still_throw halt) ?_
  intro fault span calls m' h
  cases h
  rcases hhalt with hhalt | hhalt
  · cases hhalt
  · cases hhalt

theorem composable (limits : Limits) (d : Nat) (t : Task) (m₀ : Machine) :
    Log.Composable fun {α} (x : Eval α) log m => Accounts limits d t m₀ x log m where
  pure := fun a _ => pure a
  unfinished := fun _ => throw (.inr rfl)
  thenOf := thenOf

/-- What follows changes nothing and does not fail. -/
theorem andThen {x : Eval α} {log : Log} {f : α → Eval β}
    (hx : Accounts limits d t m₀ x log m)
    (hf : ∀ a m', x m = .ok a m' → Accounts limits d t m₀ (f a) .nothing m') :
    Accounts limits d t m₀ (x >>= f) log m :=
  (composable limits d t m₀).andThen hx hf

/-- Entering a call, what happens in it, and leaving it. -/
theorem call {x : Eval α} {log : Log} {record : Record}
    (henter : t.Changes limits d m₀ m { m with stack := record :: m.stack })
    (hx : Accounts limits d t m₀ x log { m with stack := record :: m.stack })
    (hleave : t.Changes limits d m₀ (x.after { m with stack := record :: m.stack })
      ((Eval.within record x).after m)) :
    Accounts limits d t m₀ (Eval.within record x) (.call record log x) m := by
  constructor
  · exact .cons henter (hx.path.append (.single hleave))
  · intro fault span calls m' hfail
    cases h : x { m with stack := record :: m.stack } with
    | ok a m₁ =>
      rw [Eval.within_of_ok h] at hfail
      cases hfail
    | error halt m₁ =>
      rw [Eval.within_of_error h] at hfail
      cases hfail
      exact hx.origin fault span calls m₁ h

/-- The step of a statement, also one that the clock excludes. -/
theorem tick (s : Stmt) :
    Accounts limits (d + 1) (.stmt s) m (Eval.tick limits s.span)
      (.left (Eval.tick limits s.span)) m := by
  constructor
  · rw [Log.left, Eval.after_tick]
    exact .single ⟨d, .stmt s, m, .here, .count⟩
  · intro fault span calls m' hfail
    rcases Eval.tick_cases limits s.span m with ⟨_, h⟩ | ⟨hclock, hbudget, h⟩ | ⟨_, _, h⟩
    all_goals
      rw [h] at hfail
      cases hfail
    exact ⟨d, .stmt s, m, _, .here, .stepLimit hbudget hclock, rfl, rfl⟩

end Accounts

/-! ## The evaluator -/

/-- With `d` frames, whatever the evaluator does is accounted for. -/
structure EvaluatorAccounts (limits : Limits) (d : Nat) : Prop where
  eval : ∀ (e : Expr) m, Accounts limits d (.expr e) m (e.eval limits d) (e.passed limits d) m
  exec : ∀ (s : Stmt) m, Accounts limits d (.stmt s) m (s.exec limits d) (s.passed limits d) m
  call : ∀ span name args m, Accounts limits d (.call span name args) m
    (callFunction limits d span name args) (callPassed limits d span name args) m

section Evaluator

variable {limits : Limits} {d : Nat}

theorem eval_accounts (h : EvaluatorAccounts limits d) (e : Expr) (m : Machine) :
    Accounts limits (d + 1) (.expr e) m (e.eval limits (d + 1)) (e.passed limits (d + 1)) m := by
  cases e with
  | lit span v => exact .pure v
  | var span name =>
    refine .nothing (Eval.still_read span name) ?_
    intro fault span' calls m' hfail
    rw [Expr.eval, Eval.read] at hfail
    cases hread : m.read? name with
    | some v =>
      rw [hread] at hfail
      cases hfail
    | none =>
      rw [hread] at hfail
      cases hfail
      exact ⟨d, _, m, m, .here, .read hread, rfl, rfl⟩
  | stray span label => exact .fail .strayExpr
  | call span name args => exact .begins .callee (h.call span name args m)
  | binary span left op right =>
    rw [Expr.eval, Expr.passed]
    refine .thenOf (.begins .left (h.eval left m)) ?_
    intro l m₁ hl
    refine .andThen (.begins (.right hl) (h.eval right m₁)) ?_
    intro r m' hr
    unfold Eval.operate
    cases happly : op.apply l r with
    | ok v => exact .pure v
    | error fault => exact .fail (.operate hl hr happly)

theorem exec_accounts (h : EvaluatorAccounts limits d) (s : Stmt) (m : Machine) :
    Accounts limits (d + 1) (.stmt s) m (s.exec limits (d + 1)) (s.passed limits (d + 1)) m := by
  unfold Stmt.exec Stmt.passed
  refine .thenOf (.tick s) ?_
  intro _ m₁ htick
  have hinside : ∀ t' m', s.Leads limits d m₁ t' m' →
      (Task.stmt s).Begins limits d m t' m' := fun t' m' hleads => .inside htick hleads
  cases s with
  | block span body =>
    refine (Accounts.composable limits (d + 1) _ m).sequence body [] ?_ rfl
    rintro done s rest m' rfl hdone
    exact .begins (hinside _ _ (.block done hdone)) (h.exec s m')
  | expr span e =>
    exact .andThen (.begins (hinside _ _ .expr) (h.eval e m₁)) fun _ _ _ => .pure Completion.next
  | assign span name value =>
    refine .thenOf (.begins (hinside _ _ .assign) (h.eval value m₁)) ?_
    intro v m' hvalue
    have hassign : Eval.assign name v m' = .ok () (m'.assign name v) := rfl
    exact .andThen (.left hassign (.assign htick hvalue)) fun _ _ _ => .pure Completion.next
  | ifElse span cond yes no =>
    refine .thenOf (.begins (hinside _ _ .cond) (h.eval cond m₁)) ?_
    intro v m' hcond
    by_cases hv : v = 0
    · subst hv
      simp only [if_true]
      cases no with
      | none => exact .pure Completion.next
      | some no => exact .begins (hinside _ _ (.no hcond)) (h.exec no m')
    · simp only [hv, if_false]
      exact .begins (hinside _ _ (.yes hcond hv)) (h.exec yes m')
  | loop span cond body =>
    refine (Accounts.composable limits (d + 1) _ m).whileNonzero ?_ ?_ (Nat.zero_add _) .none
    · intro n m' hn hrounds
      exact .begins (hinside _ _ (.test hrounds hn)) (h.eval cond m')
    · intro n m₂ v m' hn hrounds hcond hv
      exact .begins (hinside _ _ (.body hrounds hn hcond hv)) (h.exec body m')
  | ret span value =>
    cases value with
    | none => exact .pure (Completion.returned 0)
    | some e =>
      exact .andThen (.begins (hinside _ _ .ret) (h.eval e m₁)) fun v _ _ =>
        .pure (Completion.returned v)
  | stray span label => exact .fail (.strayStmt htick)

/-- Finding a function fails where there is none, or one with other parameters. -/
theorem callee_accounts {span : Span} {name : String} {args : List Expr} {m : Machine}
    (hname : name ≠ printName) :
    Accounts limits (d + 1) (.call span name args) m (Eval.callee span name args.length)
      .nothing m := by
  refine .nothing (Eval.still_callee span name args.length) ?_
  intro fault span' calls m' hfail
  rcases Eval.callee_cases span name args.length m with
    ⟨hnone, h⟩ | ⟨f, hf, ⟨_, h⟩ | ⟨hargs, h⟩⟩
  all_goals
    rw [h] at hfail
    cases hfail
  · exact ⟨d, _, m, m, .here, .callee hname hnone, rfl, rfl⟩
  · exact ⟨d, _, m, m, .here, .arity hname hf hargs, rfl, rfl⟩

theorem call_accounts (h : EvaluatorAccounts limits d) (span : Span) (name : String)
    (args : List Expr) (m : Machine) :
    Accounts limits (d + 1) (.call span name args) m (callFunction limits (d + 1) span name args)
      (callPassed limits (d + 1) span name args) m := by
  unfold callFunction callPassed
  by_cases hname : name = printName
  · subst hname
    rw [if_pos rfl, if_pos rfl]
    rcases args with _ | ⟨e, _ | ⟨e', rest⟩⟩
    · exact .fail (.print (by simp))
    · refine .thenOf (.begins .printed (h.eval e m)) ?_
      intro v m' he
      have hemit : Eval.emit v m' = .ok () { m' with printed := m'.printed.push v } := rfl
      exact .andThen (.left hemit (.print he)) fun _ _ _ => .pure 0
    · exact .fail (.print (by simp))
  · rw [if_neg hname, if_neg hname]
    refine .thenOf (callee_accounts hname) ?_
    intro f m₁ hcallee
    refine .thenOf ?_ ?_
    · refine (Accounts.composable limits (d + 1) _ m).each args [] ?_ rfl
      rintro done e rest vs m' rfl hdone
      exact .begins (.argument hname hcallee hdone) (h.eval e m')
    · intro vs m' hargs
      have hentered := Task.Begins.entered hname hcallee hargs
      have hbody := Accounts.begins hentered (h.exec f.body _)
      refine .andThen (.call ⟨d, _, m, .here, .enter hentered⟩ hbody ?_) ?_
      · rw [Eval.after_within]
        exact ⟨d, _, m, .here, .leave hentered⟩
      · intro completion m₂ _
        cases completion with
        | next => exact .pure 0
        | returned v => exact .pure v

/-- By induction on the frames: the evaluator is accounted for. -/
theorem evaluator_accounts (limits : Limits) : ∀ d, EvaluatorAccounts limits d := by
  intro d
  induction d with
  | zero =>
    exact {
      eval := fun e m => by rw [Expr.eval, Expr.passed]; exact .throw (.inl rfl)
      exec := fun s m => by rw [Stmt.exec, Stmt.passed]; exact .throw (.inl rfl)
      call := fun span name args m => by rw [callFunction, callPassed]; exact .throw (.inl rfl) }
  | succ d ih =>
    exact { eval := eval_accounts ih, exec := exec_accounts ih, call := call_accounts ih }

end Evaluator

/-! ## Runs -/

/-- What leads from one state of a run to the next: the record of the program is put in place or
    taken away, or a task that the run comes to changes the state. -/
inductive Program.Changes (limits : Limits) (p : Program) : Machine → Machine → Prop
  | start : Changes limits p p.start p.entry
  | task {d t m₁ m m'} : p.Reaches limits (d + 1) t m₁ → t.Does limits d m₁ m m' →
      Changes limits p m m'
  | finish : Changes limits p ((p.body.exec limits limits.frames).after p.entry)
      (p.run limits).machine

namespace Program

variable {limits : Limits} {p : Program}

/-- The states passed lead from the one in which the run starts to the one that it leaves. -/
theorem path_of_run (limits : Limits) (p : Program) :
    ∃ ms, p.passed limits = p.start :: ms ∧
      Path (p.Changes limits) p.start ms (p.run limits).machine := by
  have hbody := (evaluator_accounts limits limits.frames).exec p.body p.entry
  have hlast : (Eval.within mainRecord (p.body.exec limits limits.frames)).after p.start =
      (p.run limits).machine := (run_machine limits p).symm
  refine ⟨_, rfl, ?_⟩
  rw [Log.call, hlast]
  refine .cons .start (.append (hbody.path.mono ?_) (.single .finish))
  rintro m m' ⟨d, t, m₁, hreaches, hdoes⟩
  exact .task hreaches hdoes

/-- A run that fails comes to a task that fails, and the state that the failure is in has the
    globals that the run leaves. -/
theorem origin_of_run {fault : Fault} {span : Span} {calls : List String}
    (h : (p.run limits).halt = some (.failed fault span calls)) :
    (Task.stmt p.body).Origin limits limits.frames p.entry fault span calls
      (p.run limits).machine := by
  have hbody := (evaluator_accounts limits limits.frames).exec p.body p.entry
  cases hexec : p.body.exec limits limits.frames p.entry with
  | ok c m =>
    rw [run_of_ok (Eval.within_of_ok hexec)] at h
    cases h
  | error halt m =>
    rw [run_of_error (Eval.within_of_error hexec)] at h ⊢
    cases h
    exact hbody.origin fault span calls m hexec

end Program

/-! ## Nothing is missed -/

namespace Log

variable {α : Type} {x : Eval α} {log : Log} {next : α → Log} {m m' : Machine} {a : α}

/-- The state that the computation leaves is the last one logged, if any is. -/
def Closes (x : Eval α) (log : Log) : Prop := ∀ m, x.after m ∈ m :: log m

theorem Closes.mem (h : Closes x log) (hx : x m = .ok a m') : m' ∈ m :: log m := by
  rw [← Eval.after_of_ok hx]
  exact h m

theorem closes_left (x : Eval α) : Closes x (left x) := fun _ => .tail _ (.head _)

theorem closes_nothing (hx : Eval.Still x) : Closes x nothing := by
  intro m
  rw [hx m]
  exact .head _

theorem subset_thenOf_left (log : Log) (x : Eval α) (next : α → Log) (m : Machine) :
    m :: log m ⊆ m :: thenOf log x next m :=
  List.cons_subset_cons m (List.subset_append_left _ _)

theorem subset_thenOf_right (next : α → Log) (hx : x m = .ok a m') (hlast : m' ∈ m :: log m) :
    m' :: next a m' ⊆ m :: thenOf log x next m := by
  have hfirst := subset_thenOf_left log x next m hlast
  refine List.cons_subset.mpr ⟨hfirst, ?_⟩
  rw [thenOf_of_ok hx]
  exact List.subset_cons_of_subset m (List.subset_append_right _ _)

/-- What follows a statement that fell through. -/
theorem subset_thenOf_next {x : Eval Completion} (rest : Log) (h : Closes x log)
    (hx : x m = .ok .next m') :
    m' :: rest m' ⊆ m :: thenOf log x (fun | .next => rest | .returned _ => nothing) m :=
  subset_thenOf_right (fun | .next => rest | .returned _ => nothing) hx (h.mem hx)

/-- What is logged of the rest of a row is logged of the row. -/
theorem subset_sequence {exec : Stmt → Eval Completion} {log : Stmt → Log}
    (h : ∀ s, Closes (exec s) (log s)) (behind : List Stmt) : ∀ (before : List Stmt) {m : Machine},
    Eval.sequence exec before m = .ok .next m' →
    m' :: sequence exec log behind m' ⊆ m :: sequence exec log (before ++ behind) m := by
  intro before
  induction before with
  | nil =>
    intro m hbefore
    cases hbefore
    exact List.Subset.refl _
  | cons s rest ih =>
    intro m hbefore
    rw [Eval.sequence_cons, Eval.andThen] at hbefore
    cases hs : exec s m with
    | error halt m₁ =>
      rw [Eval.bind_of_error hs] at hbefore
      cases hbefore
    | ok completion m₁ =>
      rw [Eval.bind_of_ok hs] at hbefore
      cases completion with
      | returned v => cases hbefore
      | next => exact List.Subset.trans (ih hbefore) (subset_thenOf_next _ (h s) hs)

/-- What is logged of the rest of a row is logged of the row. -/
theorem subset_each {eval : Expr → Eval Int} {log : Expr → Log}
    (h : ∀ e, Closes (eval e) (log e)) (behind : List Expr) :
    ∀ (before : List Expr) {vs : List Int} {m : Machine}, Eval.each eval before m = .ok vs m' →
    m' :: each eval log behind m' ⊆ m :: each eval log (before ++ behind) m := by
  intro before
  induction before with
  | nil =>
    intro vs m hbefore
    cases hbefore
    exact List.Subset.refl _
  | cons e rest ih =>
    intro vs m hbefore
    rw [Eval.each] at hbefore
    cases he : eval e m with
    | error halt m₁ =>
      rw [Eval.bind_of_error he] at hbefore
      cases hbefore
    | ok v m₁ =>
      rw [Eval.bind_of_ok he] at hbefore
      cases hrest : Eval.each eval rest m₁ with
      | error halt m₂ =>
        rw [Eval.bind_of_error hrest] at hbefore
        cases hbefore
      | ok vs' m₂ =>
        rw [Eval.bind_of_ok hrest] at hbefore
        cases hbefore
        have hbehind := subset_thenOf_right (fun _ => each eval log (rest ++ behind)) he
          ((h e).mem he)
        exact List.Subset.trans (ih hrest) hbehind

/-- The values of a row are there in its last state. -/
theorem mem_each {eval : Expr → Eval Int} {log : Expr → Log} {es : List Expr} {vs : List Int}
    (h : ∀ e, Closes (eval e) (log e)) (hes : Eval.each eval es m = .ok vs m') :
    m' ∈ m :: each eval log es m := by
  have hlast := subset_each h [] es hes (.head _)
  rwa [List.append_nil] at hlast

/-- What is logged in a call is logged of the call. -/
theorem subset_call (record : Record) (log : Log) (x : Eval α) (m : Machine) :
    { m with stack := record :: m.stack } :: log { m with stack := record :: m.stack } ⊆
      m :: call record log x m :=
  List.subset_cons_of_subset m (List.subset_append_left _ _)

section

variable {cond : Eval Int} {condLog : Log} {body : Eval Completion} {bodyLog : Log}

/-- What is logged behind a round is logged of the loop. -/
theorem subset_round {v : Int} {m₁ m₂ : Machine} (hcond : Closes cond condLog)
    (hbody : Closes body bodyLog) (hc : cond m = .ok v m₁) (hv : v ≠ 0)
    (hround : body m₁ = .ok .next m₂) (k : Nat) :
    m₂ :: whileNonzero cond condLog body bodyLog k m₂ ⊆
      m :: whileNonzero cond condLog body bodyLog (k + 1) m := by
  refine List.Subset.trans
    (subset_thenOf_next (whileNonzero cond condLog body bodyLog k) hbody hround) ?_
  rw [whileNonzero]
  refine List.Subset.trans ?_ (subset_thenOf_right _ hc (hcond.mem hc))
  rw [if_neg hv]
  exact List.Subset.refl _

/-- What is logged of the later rounds is logged of the loop. -/
theorem subset_whileNonzero {n : Nat} (hcond : Closes cond condLog) (hbody : Closes body bodyLog)
    (h : Eval.Rounds cond body n m m') : ∀ k,
    m' :: whileNonzero cond condLog body bodyLog k m' ⊆
      m :: whileNonzero cond condLog body bodyLog (n + k) m := by
  induction h with
  | none =>
    intro k
    rw [Nat.zero_add]
    exact List.Subset.refl _
  | @more n _ m₁ m₂ m₃ v _ hc hv hround ih =>
    intro k
    have hearlier := ih (k + 1)
    rw [show n + (k + 1) = n + 1 + k by omega] at hearlier
    exact List.Subset.trans (subset_round hcond hbody hc hv hround k) hearlier

end

end Log

section Evaluator

variable {limits : Limits} {d : Nat}

theorem closes_eval (e : Expr) : Log.Closes (e.eval limits d) (e.passed limits d) :=
  fun m => ((evaluator_accounts limits d).eval e m).path.last_mem

theorem closes_exec (s : Stmt) : Log.Closes (s.exec limits d) (s.passed limits d) :=
  fun m => ((evaluator_accounts limits d).exec s m).path.last_mem

open Log

/-- The states passed for a task that a statement hands on are passed for the statement. -/
theorem passed_of_leads {s : Stmt} {t : Task} {m m₁ m' : Machine}
    (htick : Eval.tick limits s.span m = .ok () m₁) (h : s.Leads limits d m₁ t m') :
    m' :: t.passed limits d m' ⊆ m :: s.passed limits (d + 1) m := by
  unfold Stmt.passed
  refine List.Subset.trans ?_ (subset_thenOf_right _ htick ((closes_left _).mem htick))
  cases h with
  | @block before span s behind _ _ hbefore =>
    refine List.Subset.trans ?_ (subset_sequence closes_exec (s :: behind) before hbefore)
    exact subset_thenOf_left _ _ _ _
  | expr => exact List.Subset.refl _
  | assign => exact subset_thenOf_left _ _ _ _
  | cond => exact subset_thenOf_left _ _ _ _
  | yes hc hv =>
    refine List.Subset.trans ?_ (subset_thenOf_right _ hc ((closes_eval _).mem hc))
    rw [if_neg hv]
    exact List.Subset.refl _
  | no hc =>
    refine List.Subset.trans ?_ (subset_thenOf_right _ hc ((closes_eval _).mem hc))
    rw [if_pos rfl]
    exact List.Subset.refl _
  | @test span c body n _ _ hrounds hn =>
    have hlater := subset_whileNonzero (closes_eval c) (closes_exec body) hrounds
      (limits.clock - n + 1)
    rw [show n + (limits.clock - n + 1) = limits.clock + 1 by omega] at hlater
    exact List.Subset.trans (subset_thenOf_left _ _ _ _) hlater
  | @body span c body n _ m₂ _ v hrounds hn hc hv =>
    have hlater := subset_whileNonzero (closes_eval c) (closes_exec body) hrounds
      (limits.clock - n + 1)
    rw [show n + (limits.clock - n + 1) = limits.clock + 1 by omega] at hlater
    refine List.Subset.trans ?_ hlater
    rw [whileNonzero]
    refine List.Subset.trans ?_ (subset_thenOf_right _ hc ((closes_eval c).mem hc))
    rw [if_neg hv]
    exact subset_thenOf_left _ _ _ _
  | ret => exact List.Subset.refl _

/-- The states passed for a task that is handed on are passed for the task that hands it on. -/
theorem passed_of_begins {t t' : Task} {m m' : Machine} (h : t.Begins limits d m t' m') :
    m' :: t'.passed limits d m' ⊆ m :: t.passed limits (d + 1) m := by
  cases h with
  | left => exact subset_thenOf_left _ _ _ _
  | right hl =>
    exact subset_thenOf_right (fun _ => Expr.passed limits d _) hl ((closes_eval _).mem hl)
  | callee => exact List.Subset.refl _
  | inside htick hleads => exact passed_of_leads htick hleads
  | @printed span e =>
    show m :: e.passed limits d m ⊆ m :: callPassed limits (d + 1) span printName [e] m
    unfold callPassed
    rw [if_pos rfl]
    exact subset_thenOf_left _ _ _ _
  | @argument span name before e behind f vs _ m₁ _ hname hcallee hbefore =>
    show _ ⊆ m :: callPassed limits (d + 1) span name (before ++ e :: behind) m
    unfold callPassed
    rw [if_neg hname]
    refine List.Subset.trans ?_
      (subset_thenOf_right _ hcallee ((closes_nothing (Eval.still_callee _ _ _)).mem hcallee))
    refine List.Subset.trans ?_ (subset_thenOf_left _ _ _ _)
    refine List.Subset.trans ?_ (subset_each closes_eval (e :: behind) before hbefore)
    exact subset_thenOf_left _ _ _ _
  | @entered span name args f vs _ m₁ m' hname hcallee hargs =>
    show _ ⊆ m :: callPassed limits (d + 1) span name args m
    unfold callPassed
    rw [if_neg hname]
    refine List.Subset.trans ?_
      (subset_thenOf_right _ hcallee ((closes_nothing (Eval.still_callee _ _ _)).mem hcallee))
    refine List.Subset.trans ?_ (subset_thenOf_right _ hargs (mem_each closes_eval hargs))
    exact subset_call _ _ _ m'

/-- Whatever task a run comes to begins in a state passed, and what it passes the run passes. -/
theorem passed_of_reaches {p : Program} {t : Task} {m : Machine} (h : p.Reaches limits d t m) :
    m :: t.passed limits d m ⊆ p.passed limits := by
  unfold Program.Reaches at h
  induction h with
  | here => exact subset_call mainRecord _ _ p.start
  | deeper _ hbegins ih => exact List.Subset.trans (passed_of_begins hbegins) ih

end Evaluator

end MiniLang
