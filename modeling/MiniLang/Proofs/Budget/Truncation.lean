/-
  A clock only truncates a run.

  Two runs of one program with the same frames, one of them with a clock that is no smaller than
  the clock of the other, go the same way up to the step that exceeds the smaller one.

  1. **Comparison** — `Compared limits m log short long`: from `m` on, the short computation and
     the long one end alike within the clock of `limits`, or the short one is stopped, in the state
     in which the long one begins the statement that the clock excludes.  `log` is the log of the
     long one.
  2. **Steps of the proof** — `Compared.bind` puts comparisons one behind the other; the primitive
     computations are the same on both sides, and `Eval.tick` is where the two part.
  3. **Loops** — both sides count their rounds down from different numbers; every round counts a
     step, so neither count is used up within the clock.
  4. **Whole runs** — `run_compared` and what follows from it for output, globals and steps.
-/
import MiniLang.Proofs.Bare
import MiniLang.Proofs.Budget.Begun

namespace MiniLang

/-- How the clock stops a run, at a place and inside some calls. -/
def Limits.stop (limits : Limits) (span : Span) (calls : List String) : Halt :=
  if limits.budget.isSome then .failed .stepLimit span calls else .unfinished

/-- A halt that comes from a clock. -/
inductive Halt.OfClock : Halt → Prop
  | budget (span : Span) (calls : List String) : OfClock (.failed .stepLimit span calls)
  | patience : OfClock .unfinished

/-! ## Comparison -/

/-- How a computation with a clock ends beside one with more time, both begun in `m`. -/
inductive Compared {α : Type} (limits : Limits) (m : Machine) (log : List Machine) :
    EStateM.Result Halt Machine α → EStateM.Result Halt Machine α → Prop
  /-- Both end with the same value. -/
  | value {a : α} {m' : Machine} : m'.steps ≤ limits.clock →
      Compared limits m log (.ok a m') (.ok a m')
  /-- Both fail alike, and not for want of steps. -/
  | halt {halt : Halt} {m' : Machine} : m'.steps ≤ limits.clock → ¬ halt.OfClock →
      Compared limits m log (.error halt m') (.error halt m')
  /-- The short one is stopped where the long one begins a statement in the state `b`. -/
  | cut {span : Span} {b m' : Machine} {long : EStateM.Result Halt Machine α} :
      log[limits.clock - m.steps]? = some b →
      m'.steps = limits.clock + 1 → m'.globals = b.globals → m'.printed = b.printed →
      Compared limits m log (.error (limits.stop span b.calls) m') long

/-- Two computations compare from every state within the clock. -/
def Follows {α : Type} (limits : Limits) (short long : Eval α) (log : Log) : Prop :=
  ∀ m, m.steps ≤ limits.clock → Compared limits m (log m) (short m) (long m)

namespace Compared

variable {α β : Type} {limits : Limits} {m : Machine} {log : Log}

/-- What is logged before does not matter, if it is counted. -/
theorem behind {m' : Machine} {earlier later : List Machine}
    {short long : EStateM.Result Halt Machine α} :
    Compared limits m' later short long → m'.steps = m.steps + earlier.length →
    m'.steps ≤ limits.clock → Compared limits m (earlier ++ later) short long := by
  intro h hsteps hle
  cases h with
  | value hm => exact .value hm
  | halt hm hne => exact .halt hm hne
  | cut hb hm hglobals hprinted =>
    -- the earlier entries are as many as the steps in between, so the number shifts by them
    refine .cut ?_ hm hglobals hprinted
    rw [List.getElem?_append_right (by omega), ← hb]
    congr 1
    omega

/-- A comparison goes on where both computations get through, and is decided otherwise. -/
theorem bind {x y : Eval α} {f g : α → Eval β} {next : α → Log} :
    Logs y log → Compared limits m (log m) (x m) (y m) →
    (∀ a m', y m = .ok a m' → m'.steps ≤ limits.clock →
      Compared limits m' (next a m') (f a m') (g a m')) →
    Compared limits m (Log.thenOf log y next m) ((x >>= f) m) ((y >>= g) m) := by
  intro hlog hx hf
  have hsteps := hlog.steps m
  generalize hshort : x m = short at hx
  generalize hlong : y m = long at hx
  cases hx with
  | @value a m' hm =>
    rw [Eval.after_of_ok hlong] at hsteps
    rw [Eval.bind_of_ok hshort, Eval.bind_of_ok hlong, Log.thenOf_of_ok hlong]
    exact (hf a m' hlong hm).behind hsteps hm
  | halt hm hne =>
    rw [Eval.bind_of_error hshort, Eval.bind_of_error hlong]
    exact .halt hm hne
  | cut hb hm hglobals hprinted =>
    -- the long computation may go on as it likes: the entry is in its log already
    rw [Eval.bind_of_error hshort]
    refine .cut ?_ hm hglobals hprinted
    rw [Log.thenOf, List.getElem?_append_left (List.getElem?_eq_some_iff.mp hb).1]
    exact hb

end Compared

namespace Follows

variable {α β : Type} {limits : Limits} {log : Log}

theorem thenOf {x y : Eval α} {f g : α → Eval β} {next : α → Log} :
    Logs y log → Follows limits x y log → (∀ a, Follows limits (f a) (g a) (next a)) →
    Follows limits (x >>= f) (y >>= g) (.thenOf log y next) := by
  intro hlog hx hf m hm
  exact (hx m hm).bind hlog fun a m' _ hm' => hf a m' hm'

theorem andThen {x y : Eval α} {f : α → Eval β} :
    Logs y log → Follows limits x y log → (∀ a, Follows limits (f a) (f a) .nothing) →
    Follows limits (x >>= f) (y >>= f) log := by
  intro hlog hx hf
  rw [← Log.thenOf_nothing log y]
  exact thenOf hlog hx hf

/-- A computation that counts no step and never overruns compares with itself. -/
theorem refl {x : Eval α} : Logs x .nothing →
    (∀ m halt m', x m = .error halt m' → ¬ halt.OfClock) → Follows limits x x .nothing := by
  intro hlog hne m hm
  have hsteps := hlog.steps m
  rw [Log.nothing, List.length_nil, Nat.add_zero] at hsteps
  cases h : x m with
  | ok a m' =>
    rw [Eval.after_of_ok h] at hsteps
    exact .value (by omega)
  | error halt m' =>
    rw [Eval.after_of_error h] at hsteps
    exact .halt (by omega) (hne m halt m' h)

theorem within {x y : Eval α} : ∀ (record : Record), Follows limits x y log →
    Follows limits (Eval.within record x) (Eval.within record y) (.within record log) := by
  intro record h m hm
  have hx := h { m with stack := record :: m.stack } hm
  unfold Eval.within Log.within
  generalize x { m with stack := record :: m.stack } = short at hx ⊢
  generalize y { m with stack := record :: m.stack } = long at hx ⊢
  cases hx with
  | value hm' => exact .value hm'
  | halt hm' hne => exact .halt hm' hne
  | cut hb hm' hglobals hprinted => exact .cut hb hm' hglobals hprinted

/-- The two computations part here: at the step that only the longer clock admits. -/
theorem tick {short long : Limits} : short.clock ≤ long.clock →
    ∀ span, Follows short (Eval.tick short span) (Eval.tick long span) .here := by
  intro hclock span m hm
  by_cases h : m.steps + 1 ≤ short.clock
  · have hlong : m.steps + 1 ≤ long.clock := Nat.le_trans h hclock
    have hsame : Eval.tick short span m = .ok () { m with steps := m.steps + 1 } := by
      simp only [Eval.tick, h, if_true]
    have hsame' : Eval.tick long span m = .ok () { m with steps := m.steps + 1 } := by
      simp only [Eval.tick, hlong, if_true]
    rw [hsame, hsame']
    exact .value h
  · have hcut : Eval.tick short span m =
        .error (short.stop span m.calls) { m with steps := m.steps + 1 } := by
      simp only [Eval.tick, Limits.stop, h, if_false, Eval.fail]
      split <;> rfl
    -- it is the step behind the last one that the short clock admits
    have hnow : m.steps = short.clock := by omega
    rw [hcut]
    refine .cut (b := m) ?_ ?_ rfl rfl
    · rw [hnow, Nat.sub_self]
      rfl
    · show m.steps + 1 = short.clock + 1
      rw [hnow]

/-! ## The primitive computations -/

theorem pure : ∀ (a : α), Follows limits (pure a) (pure a) .nothing := by
  intro a
  refine refl (.pure a) ?_
  intro m halt m' h
  cases h

theorem fail : ∀ {fault : Fault} (span : Span), fault ≠ .stepLimit →
    Follows limits (Eval.fail (α := α) fault span) (Eval.fail fault span) .nothing := by
  intro fault span hne
  refine refl (.fail fault span) ?_
  intro m halt m' h
  cases h
  intro hclock
  cases hclock
  exact hne rfl

theorem tooDeep : Follows limits (Eval.tooDeep (α := α)) Eval.tooDeep .nothing := by
  refine refl (.throw .tooDeep) ?_
  intro m halt m' h
  cases h
  exact fun hclock => nomatch hclock

theorem read : ∀ (span : Span) (name : String),
    Follows limits (Eval.read span name) (Eval.read span name) .nothing := by
  intro span name
  refine refl (.read span name) ?_
  intro m halt m' h
  unfold Eval.read at h
  cases hread : m.read? name with
  | some v => rw [hread] at h; cases h
  | none =>
    rw [hread] at h
    cases h
    exact fun hclock => nomatch hclock

/-- No operator asks for steps. -/
theorem apply_ne_stepLimit {op : Token.Kind} {l r : Int} {fault : Fault} :
    op.apply l r = .error fault → fault ≠ .stepLimit := by
  intro h
  rcases Token.Kind.fault_of_apply h with ⟨rfl, _⟩ | rfl
  · exact Fault.noConfusion
  · exact Fault.noConfusion

theorem operate : ∀ (span : Span) (op : Token.Kind) (l r : Int),
    Follows limits (Eval.operate span op l r) (Eval.operate span op l r) .nothing := by
  intro span op l r
  unfold Eval.operate
  cases h : op.apply l r with
  | ok v => exact pure v
  | error fault => exact fail span (apply_ne_stepLimit h)

theorem callee : ∀ (span : Span) (name : String) (args : Nat),
    Follows limits (Eval.callee span name args) (Eval.callee span name args) .nothing := by
  intro span name args
  refine refl (.callee span name args) ?_
  intro m halt m' h
  rcases Eval.callee_cases span name args m with
    ⟨_, hcallee⟩ | ⟨f, _, ⟨_, hcallee⟩ | ⟨_, hcallee⟩⟩
  all_goals
    rw [hcallee] at h
    cases h
  · exact fun hclock => nomatch hclock
  · exact fun hclock => nomatch hclock

theorem assign : ∀ (name : String) (v : Int),
    Follows limits (Eval.assign name v) (Eval.assign name v) .nothing := by
  intro name v
  refine refl (.assign name v) ?_
  intro m halt m' h
  cases h

theorem emit : ∀ (v : Int), Follows limits (Eval.emit v) (Eval.emit v) .nothing := by
  intro v
  refine refl (.emit v) ?_
  intro m halt m' h
  cases h

/-! ## The helpers of the evaluator -/

theorem each {eval eval' : Expr → Eval Int} {logOf : Expr → Log} :
    (∀ e, Logs (eval' e) (logOf e)) → (∀ e, Follows limits (eval e) (eval' e) (logOf e)) →
    ∀ es, Follows limits (Eval.each eval es) (Eval.each eval' es) (.each eval' logOf es) := by
  intro hlog h es
  induction es with
  | nil => exact pure []
  | cons e rest ih =>
    apply thenOf (hlog e) (h e)
    intro v
    exact andThen (Logs.each hlog rest) ih fun vs => pure (v :: vs)

theorem sequence {exec exec' : Stmt → Eval Completion} {logOf : Stmt → Log} :
    (∀ s, Logs (exec' s) (logOf s)) → (∀ s, Follows limits (exec s) (exec' s) (logOf s)) →
    ∀ body, Follows limits (Eval.sequence exec body) (Eval.sequence exec' body)
      (.sequence exec' logOf body) := by
  intro hlog h body
  induction body with
  | nil => exact pure Completion.next
  | cons s rest ih =>
    apply thenOf (hlog s) (h s)
    intro completion
    cases completion with
    | next => exact ih
    | returned v => exact pure (Completion.returned v)

/-- Loops compare, however many rounds they may still do, if the short one may do as many as there
    are steps left.  By induction on its rounds: each takes a step away, so none is left over. -/
theorem whileNonzero {cond cond' : Eval Int} {body body' : Eval Completion}
    {condLog bodyLog : Log} :
    Logs cond' condLog → Logs body' bodyLog →
    Follows limits cond cond' condLog → Follows limits body body' bodyLog →
    (∀ m c m', body' m = .ok c m' → m.steps < m'.steps) →
    ∀ n n', n ≤ n' → ∀ m, m.steps ≤ limits.clock → limits.clock < n + m.steps →
      Compared limits m (Log.whileNonzero cond' condLog body' bodyLog n' m)
        (Eval.whileNonzero cond body n m) (Eval.whileNonzero cond' body' n' m) := by
  intro hcondLog hbodyLog hcond hbody hprogress n
  induction n with
  | zero =>
    intro n' _ m hm hrounds
    omega
  | succ n ih =>
    intro n' hn m hm hrounds
    obtain ⟨n', rfl⟩ : ∃ k, n' = k + 1 := ⟨n' - 1, by omega⟩
    refine (hcond m hm).bind hcondLog ?_
    intro v m₁ hv hm₁
    have hle : m.steps ≤ m₁.steps := by
      have hsteps := hcondLog.steps m
      rw [Eval.after_of_ok hv] at hsteps
      omega
    by_cases hzero : v = 0
    · simp only [hzero, if_true]
      exact pure Completion.next m₁ hm₁
    · simp only [hzero, if_false]
      refine (hbody m₁ hm₁).bind hbodyLog ?_
      intro completion m₂ hc hm₂
      -- the round has taken a step, so the rounds left are still more than the steps left
      have hlt : m₁.steps < m₂.steps := hprogress m₁ completion m₂ hc
      cases completion with
      | next => exact ih n' (by omega) m₂ hm₂ (by omega)
      | returned v => exact pure (Completion.returned v) m₂ hm₂

end Follows

/-! ## The evaluator -/

/-- With so many frames, every computation with the limits `short` compares with the one with the
    limits `long`. -/
structure EvaluatorFollows (short long : Limits) (d : Nat) : Prop where
  eval : ∀ e : Expr, Follows short (e.eval short d) (e.eval long d) (e.begun long d)
  exec : ∀ s : Stmt, Follows short (s.exec short d) (s.exec long d) (s.begun long d)
  call : ∀ span name args, Follows short (callFunction short d span name args)
    (callFunction long d span name args) (callBegun long d span name args)

section Evaluator

variable {short long : Limits} {d : Nat}

theorem eval_follows : EvaluatorFollows short long d → ∀ e : Expr,
    Follows short (e.eval short (d + 1)) (e.eval long (d + 1)) (e.begun long (d + 1)) := by
  intro h e
  have hlogs := evaluator_logs long d
  cases e with
  | lit span v => exact .pure v
  | var span name => exact .read span name
  | stray span label => exact .fail span Fault.noConfusion
  | call span name args => exact h.call span name args
  | binary span left op right =>
    rw [Expr.eval, Expr.eval, Expr.begun]
    apply Follows.thenOf (hlogs.eval left) (h.eval left)
    intro l
    exact .andThen (hlogs.eval right) (h.eval right) fun r => .operate span op l r

theorem exec_follows : short.clock ≤ long.clock →
    EvaluatorFollows short long d → ∀ s : Stmt,
    Follows short (s.exec short (d + 1)) (s.exec long (d + 1)) (s.begun long (d + 1)) := by
  intro hclock h s
  have hlogs := evaluator_logs long d
  unfold Stmt.exec Stmt.begun
  apply Follows.thenOf (.tick long s.span) (.tick hclock s.span)
  intro _
  cases s with
  | block span body => exact .sequence hlogs.exec h.exec body
  | expr span e => exact .andThen (hlogs.eval e) (h.eval e) fun _ => .pure Completion.next
  | assign span name value =>
    apply Follows.andThen (hlogs.eval value) (h.eval value)
    intro v
    exact .andThen (.assign name v) (.assign name v) fun _ => .pure Completion.next
  | ifElse span cond yes no =>
    apply Follows.thenOf (hlogs.eval cond) (h.eval cond)
    intro v
    by_cases hv : v = 0
    · simp only [hv, if_true]
      cases no with
      | some s => exact h.exec s
      | none => exact .pure Completion.next
    · simp only [hv, if_false]
      exact h.exec yes
  | loop span cond body =>
    intro m hm
    exact Follows.whileNonzero (hlogs.eval cond) (hlogs.exec body) (h.eval cond) (h.exec body)
      (fun m c m' => exec_steps_lt) _ _ (Nat.succ_le_succ hclock) m hm (by omega)
  | ret span value =>
    cases value with
    | none => exact .pure (Completion.returned 0)
    | some e =>
      exact .andThen (hlogs.eval e) (h.eval e) fun v => .pure (Completion.returned v)
  | stray span label => exact .fail span Fault.noConfusion

theorem call_follows : EvaluatorFollows short long d → ∀ span name args,
    Follows short (callFunction short (d + 1) span name args)
      (callFunction long (d + 1) span name args) (callBegun long (d + 1) span name args) := by
  intro h span name args
  have hlogs := evaluator_logs long d
  unfold callFunction callBegun
  by_cases hname : name = printName
  · rw [if_pos hname, if_pos hname, if_pos hname]
    rcases args with _ | ⟨e, _ | ⟨e', rest⟩⟩
    · exact .fail span Fault.noConfusion
    · apply Follows.andThen (hlogs.eval e) (h.eval e)
      intro v
      exact .andThen (.emit v) (.emit v) fun _ => .pure 0
    · exact .fail span Fault.noConfusion
  · rw [if_neg hname, if_neg hname, if_neg hname]
    apply Follows.thenOf (.callee span name args.length) (.callee span name args.length)
    intro f
    apply Follows.thenOf (.each hlogs.eval args) (.each hlogs.eval h.eval args)
    intro vs
    apply Follows.andThen (.within _ (hlogs.exec f.body)) (.within _ (h.exec f.body))
    intro completion
    cases completion with
    | next => exact .pure 0
    | returned v => exact .pure v

/-- By induction on the frames: every computation compares with the one that has more time. -/
theorem evaluator_follows : short.clock ≤ long.clock →
    ∀ d, EvaluatorFollows short long d := by
  intro hclock d
  induction d with
  | zero =>
    exact {
      eval := fun e => by rw [Expr.eval, Expr.eval, Expr.begun]; exact .tooDeep
      exec := fun s => by rw [Stmt.exec, Stmt.exec, Stmt.begun]; exact .tooDeep
      call := fun span name args => by
        rw [callFunction, callFunction, callBegun]; exact .tooDeep }
  | succ d ih =>
    exact {
      eval := eval_follows ih
      exec := exec_follows hclock ih
      call := call_follows ih }

end Evaluator

/-! ## Output -/

namespace Machine

/-- The output is the lines of what was printed, one after the other. -/
theorem output_toList : ∀ m : Machine,
    m.output.toList = m.printed.toList.flatMap fun v => (line v).toList := by
  intro m
  have hfold : ∀ (vs : List Int) (text : String),
      (vs.foldl (fun text v => text ++ line v) text).toList =
        text.toList ++ vs.flatMap fun v => (line v).toList := by
    intro vs
    induction vs with
    | nil => intro text; simp
    | cons v vs ih =>
      intro text
      rw [List.foldl_cons, ih, String.toList_append, List.flatMap_cons, List.append_assoc]
  rw [output, ← Array.foldl_toList, hfold]
  rfl

/-- Who has printed more has put out more. -/
theorem output_isPrefix {m m' : Machine} : m.printed.toList <+: m'.printed.toList →
    m.output.toList <+: m'.output.toList := by
  rintro ⟨more, h⟩
  rw [output_toList, output_toList, ← h, List.flatMap_append]
  exact List.prefix_append _ _

end Machine

/-! ## Whole runs -/

namespace Program

/-- The state in which a run starts. -/
def start (program : Program) : Machine := Machine.empty.define program.functions

/-- The computation that a run does. -/
def work (limits : Limits) (program : Program) : Eval Completion :=
  Eval.within mainRecord (program.body.exec limits limits.frames)

theorem run_of_ok {limits : Limits} {program : Program} {c : Completion} {m : Machine} :
    program.work limits program.start = .ok c m → program.run limits = ⟨m, none⟩ := by
  intro h
  unfold work start at h
  simp only [run, h]

theorem run_of_error {limits : Limits} {program : Program} {halt : Halt} {m : Machine} :
    program.work limits program.start = .error halt m → program.run limits = ⟨m, some halt⟩ := by
  intro h
  unfold work start at h
  simp only [run, h]

theorem run_machine (limits : Limits) (program : Program) :
    (program.run limits).machine = (program.work limits).after program.start := by
  cases h : program.work limits program.start with
  | ok c m => rw [run_of_ok h, Eval.after_of_ok h]
  | error halt m => rw [run_of_error h, Eval.after_of_error h]

theorem work_logs (limits : Limits) (program : Program) :
    Logs (program.work limits) (.within mainRecord (program.body.begun limits limits.frames)) :=
  .within mainRecord ((evaluator_logs limits limits.frames).exec program.body)

/-- The steps of a run are the statements it begins. -/
theorem steps_eq_length (limits : Limits) (program : Program) :
    (program.run limits).steps = (program.begun limits).length := by
  have hsteps := (work_logs limits program).steps program.start
  rw [← run_machine] at hsteps
  rw [Outcome.steps, hsteps]
  exact Nat.zero_add _

/-- The `i`-th statement begins after `i` steps. -/
theorem steps_of_begun {limits : Limits} {program : Program} {i : Nat} {b : Machine} :
    (program.begun limits)[i]? = some b → b.steps = i := by
  intro h
  have hentry := (work_logs limits program).entry program.start i b h
  rw [hentry]
  exact Nat.zero_add i

/-- What is put out when a statement begins stays. -/
theorem output_of_begun {limits : Limits} {program : Program} {i : Nat} {b : Machine} :
    (program.begun limits)[i]? = some b →
    b.output.toList <+: (program.run limits).output.toList := by
  intro h
  have hpassed := (work_logs limits program).passed program.start b (List.mem_of_getElem? h)
  rw [← run_machine] at hpassed
  exact Machine.output_isPrefix hpassed

/-- A run with frames to begin with begins with a step. -/
theorem steps_pos {limits : Limits} {program : Program} : 0 < limits.frames →
    0 < (program.run limits).steps := by
  intro hframes
  obtain ⟨d, hd⟩ : ∃ d, limits.frames = d + 1 := ⟨limits.frames - 1, by omega⟩
  rw [steps_eq_length, begun, hd, Log.within]
  unfold Stmt.begun
  rw [Log.thenOf, Log.here, List.length_append]
  exact Nat.lt_add_right _ (Nat.zero_lt_one)

/-- A run with less time is the run with more time, or it is stopped in a state of that run: the
    one in which it begins the first statement that the smaller clock excludes. -/
theorem run_compared (program : Program) (short long : Limits) :
    short.frames = long.frames → short.clock ≤ long.clock →
    (program.run short = program.run long ∧ (program.run short).steps ≤ short.clock ∧
      ∀ halt, (program.run short).halt = some halt → ¬ halt.OfClock) ∨
    ∃ b span, (program.begun long)[short.clock]? = some b ∧
      (program.run short).halt = some (short.stop span b.calls) ∧
      (program.run short).steps = short.clock + 1 ∧
      (program.run short).output = b.output ∧ (program.run short).globals = b.globalVars := by
  intro hframes hclock
  have hfollows : Follows short (program.work short) (program.work long)
      (.within mainRecord (program.body.begun long long.frames)) := by
    rw [work, work, hframes]
    exact .within mainRecord ((evaluator_follows hclock long.frames).exec program.body)
  have hcompared := hfollows program.start (Nat.zero_le _)
  generalize hshort : program.work short program.start = r at hcompared
  generalize hlong : program.work long program.start = r' at hcompared
  cases hcompared with
  | value hm =>
    left
    rw [run_of_ok hshort, run_of_ok hlong]
    exact ⟨rfl, hm, fun halt h => nomatch h⟩
  | halt hm hne =>
    left
    rw [run_of_error hshort, run_of_error hlong]
    refine ⟨rfl, hm, ?_⟩
    intro halt h
    cases h
    exact hne
  | @cut span b m' _ hb hm hglobals hprinted =>
    right
    rw [run_of_error hshort]
    refine ⟨b, span, hb, rfl, hm, ?_, ?_⟩
    · rw [Outcome.output, Machine.output, Machine.output, hprinted]
    · rw [Outcome.globals, Machine.globalVars, Machine.globalVars, hglobals]

end Program

/-- The run was stopped by its budget. -/
def Outcome.Overruns (o : Outcome) : Prop :=
  ∃ span calls, o.halt = some (.failed .stepLimit span calls)

/-- The limits leave as much time as a budget of `k` steps. -/
def Limits.Covers (limits : Limits) (k : Int) : Prop :=
  match limits.budget with
  | some k' => k ≤ k'
  | none => k.toNat ≤ limits.patience

/-- The same limits with a budget of `k` steps. -/
def Limits.withBudget (limits : Limits) (k : Int) : Limits := { limits with budget := some k }

theorem Limits.clock_le_of_covers {limits : Limits} {k : Int} : limits.Covers k →
    (limits.withBudget k).clock ≤ limits.clock := by
  intro h
  unfold Covers at h
  unfold withBudget clock
  cases hbudget : limits.budget with
  | some k' =>
    rw [hbudget] at h
    exact Int.toNat_le_toNat h
  | none =>
    rw [hbudget] at h
    exact h

theorem Outcome.not_overruns {o : Outcome} : (∀ halt, o.halt = some halt → ¬ halt.OfClock) →
    ¬ o.Overruns := by
  rintro h ⟨span, calls, hhalt⟩
  exact h _ hhalt (.budget span calls)

/-- Where the budget leaves less time than the patience, the steps of a run decide. -/
theorem Program.overruns_iff_of_le {program : Program} {limits : Limits} {k : Int} :
    limits.budget = none → 0 < limits.frames → k.toNat ≤ limits.patience →
    ((program.run (limits.withBudget k)).Overruns ↔ k < (program.run limits).steps) := by
  intro hbudget hframes hle
  have hcovers : limits.Covers k := by
    rw [Limits.Covers, hbudget]
    exact hle
  rcases run_compared program (limits.withBudget k) limits rfl
    (Limits.clock_le_of_covers hcovers) with ⟨hsame, hsteps, hclock⟩ | ⟨b, span, hb, hhalt, _⟩
  · have hpos : 0 < (program.run (limits.withBudget k)).steps := steps_pos hframes
    have hle : (program.run (limits.withBudget k)).steps ≤ k.toNat := hsteps
    constructor
    · exact fun h => absurd h (Outcome.not_overruns hclock)
    · intro h
      rw [← hsame] at h
      omega
  · have hlt : k.toNat < (program.run limits).steps := by
      rw [steps_eq_length]
      exact (List.getElem?_eq_some_iff.mp hb).1
    constructor
    · intro _
      omega
    · exact fun _ => ⟨span, b.calls, hhalt⟩

/-- Where the patience is smaller and yet not used up, no budget above it is used up either. -/
theorem Program.overruns_iff_of_lt {program : Program} {limits : Limits} {k : Int} :
    limits.budget = none → limits.patience < k.toNat →
    (program.run limits).halt ≠ some .unfinished →
    ((program.run (limits.withBudget k)).Overruns ↔ k < (program.run limits).steps) := by
  intro hbudget hlt hends
  have hclock : limits.clock = limits.patience := by rw [Limits.clock, hbudget]
  have hle : limits.clock ≤ (limits.withBudget k).clock := by
    rw [hclock]
    exact Nat.le_of_lt hlt
  rcases run_compared program limits (limits.withBudget k) rfl hle with
    ⟨hsame, hsteps, hnot⟩ | ⟨b, span, hb, hhalt, _⟩
  · constructor
    · intro h
      rw [← hsame] at h
      exact absurd h (Outcome.not_overruns hnot)
    · intro h
      omega
  · rw [Limits.stop, hbudget] at hhalt
    exact absurd hhalt hends

/-- A budget only truncates a run.  With limits that leave as much time as the budget:

    1. a run that the budget does not stop is the same under the limits;
    2. a run that the budget stops has counted one step more than the budget, and has the output,
       the globals and the live calls of the state in which the run under the limits begins the
       statement with that number; the output of the latter run begins with this output.

    And a run without a budget that ends, after whatever number of steps, overruns exactly the
    budgets below this number. -/
theorem budget_only_truncates (program : Program) (limits : Limits) (k : Int) :
    (limits.Covers k →
      (¬ (program.run (limits.withBudget k)).Overruns →
        program.run limits = program.run (limits.withBudget k)) ∧
      ((program.run (limits.withBudget k)).Overruns →
        (program.run (limits.withBudget k)).steps = k.toNat + 1 ∧
        (∃ b span, (program.begun limits)[k.toNat]? = some b ∧ b.steps = k.toNat ∧
          (program.run (limits.withBudget k)).output = b.output ∧
          (program.run (limits.withBudget k)).globals = b.globalVars ∧
          (program.run (limits.withBudget k)).halt = some (.failed .stepLimit span b.calls)) ∧
        (program.run (limits.withBudget k)).output.toList <+:
          (program.run limits).output.toList)) ∧
    (limits.budget = none → 0 < limits.frames → (program.run limits).halt ≠ some .unfinished →
      ((program.run (limits.withBudget k)).Overruns ↔ k < (program.run limits).steps)) := by
  constructor
  · intro hcovers
    rcases Program.run_compared program (limits.withBudget k) limits rfl
      (Limits.clock_le_of_covers hcovers) with
      ⟨hsame, hsteps, hclock⟩ | ⟨b, span, hb, hhalt, hsteps, houtput, hglobals⟩
    · constructor
      · exact fun _ => hsame.symm
      · exact fun h => absurd h (Outcome.not_overruns hclock)
    · constructor
      · intro h
        exact absurd ⟨span, b.calls, hhalt⟩ h
      · intro _
        refine ⟨hsteps, ⟨b, span, hb, Program.steps_of_begun hb, houtput, hglobals, hhalt⟩, ?_⟩
        rw [houtput]
        exact Program.output_of_begun hb
  · intro hbudget hframes hends
    rcases Nat.lt_or_ge limits.patience k.toNat with hlt | hle
    · exact Program.overruns_iff_of_lt hbudget hlt hends
    · exact Program.overruns_iff_of_le hbudget hframes hle

/-- `i = 0; while (f(i) < 3) i = i + 1;` where `f` prints its argument and returns it. -/
def counting : Program :=
  { span := .nowhere
    functions := [⟨.nowhere, "f", ["n"], .block .nowhere [
      .expr .nowhere (.call .nowhere "print" [.var .nowhere "n"]),
      .ret .nowhere (some (.var .nowhere "n"))]⟩]
    body := .block .nowhere [
      .assign .nowhere "i" (.lit .nowhere 0),
      .loop .nowhere
        (.binary .nowhere (.call .nowhere "f" [.var .nowhere "i"]) .lt (.lit .nowhere 3))
        (.assign .nowhere "i" (.binary .nowhere (.var .nowhere "i") .plus (.lit .nowhere 1)))] }

/-- The tenth step of this program falls into a call made by the condition of its loop; all in all
    it takes eighteen. -/
theorem counting_truncated :
    let limits : Limits := ⟨none, 40, 12⟩
    (limits.Covers 9 ∧ (counting.run (limits.withBudget 9)).Overruns ∧
      (counting.run (limits.withBudget 9)).steps = 10 ∧
      (counting.run (limits.withBudget 9)).output = "0\n1\n" ∧
      "0\n1\n".toList <+: (counting.run limits).output.toList) ∧
    (0 < limits.frames ∧ (counting.run limits).halt = none ∧ (counting.run limits).steps = 18 ∧
      ((counting.run (limits.withBudget 17)).Overruns ↔ (17 : Int) < 18) ∧
      ((counting.run (limits.withBudget 18)).Overruns ↔ (18 : Int) < 18)) := by
  intro limits
  have hcovers : limits.Covers 9 := by
    show (9 : Int).toNat ≤ 40
    decide
  have hover : (counting.run (limits.withBudget 9)).Overruns :=
    ⟨.nowhere, ["f", "<main>"], by decide +kernel⟩
  have hframes : 0 < limits.frames := by decide
  have houtput : (counting.run (limits.withBudget 9)).output = "0\n1\n" := by decide +kernel
  have hhalt : (counting.run limits).halt = none := by decide +kernel
  have hsteps : (counting.run limits).steps = 18 := by decide +kernel
  have hends : (counting.run limits).halt ≠ some .unfinished := by rw [hhalt]; exact nofun
  obtain ⟨hten, _, hprefix⟩ := ((budget_only_truncates counting limits 9).1 hcovers).2 hover
  have h17 := (budget_only_truncates counting limits 17).2 rfl hframes hends
  have h18 := (budget_only_truncates counting limits 18).2 rfl hframes hends
  rw [houtput] at hprefix
  rw [hsteps] at h17 h18
  exact ⟨⟨hcovers, hover, hten, houtput, hprefix⟩, hframes, hhalt, hsteps, h17, h18⟩

end MiniLang
