/-
  The states that a run comes through.

  A run is a tree of tasks: to find the value of an expression, to execute a statement, to call a
  function.  Each begins in some state and hands the rest of its work on, with one frame less.

  1. **Tasks** — `Task.perform` does one; what it ends in is a value, or nothing where a statement
     returns none.
  2. **Handing on** — `Task.Begins` relates a task and the state it begins in to each task that it
     hands on and the state that this one begins in; for the body of a statement, behind its step,
     this is `Stmt.Leads`.  Which states they are is read off the evaluator.
  3. **Reached** — `Program.Reaches` is what comes of handing on any number of times, from the body
     of the program on.
  4. **Rows and rounds** — what holds of each part of a row where the parts before it are done holds
     of the row, if it goes through `Log.thenOf` (`Log.Composable`).
  5. **Nothing is missed** — every state in which the run begins a statement, and so every state in
     which it counts a step, is among those in which a reached statement begins
     (`reaches_of_begun`).
-/
import MiniLang.Proofs.Budget.Truncation

namespace MiniLang

/-! ## Tasks -/

/-- A piece of the work of a run. -/
inductive Task
  | expr (e : Expr)
  | stmt (s : Stmt)
  | call (span : Span) (name : String) (args : List Expr)

/-- The value that a statement returns, if it returns one. -/
def Completion.value? : Completion → Option Int
  | .next => none
  | .returned v => some v

/-- Does a task: expressions and calls end in a value, and so do statements that return one. -/
def Task.perform (limits : Limits) (d : Nat) : Task → Eval (Option Int)
  | .expr e => do
    let v ← e.eval limits d
    return some v
  | .stmt s => do
    let completion ← s.exec limits d
    return completion.value?
  | .call span name args => do
    let v ← callFunction limits d span name args
    return some v

/-! ## Handing on -/

/-- So many full rounds of a loop lead from one state to another. -/
inductive Eval.Rounds (cond : Eval Int) (body : Eval Completion) : Nat → Machine → Machine → Prop
  | none {m} : Rounds cond body 0 m m
  | more {n m m₁ m₂ m₃ v} : Rounds cond body n m m₁ → cond m₁ = .ok v m₂ → v ≠ 0 →
      body m₂ = .ok .next m₃ → Rounds cond body (n + 1) m m₃

/-- What a statement hands on once its step is counted, with `d` frames left. -/
inductive Stmt.Leads (limits : Limits) (d : Nat) : Stmt → Machine → Task → Machine → Prop
  | block (before : List Stmt) {span s behind m m'} :
      Eval.sequence (Stmt.exec limits d) before m = .ok .next m' →
      Leads limits d (.block span (before ++ s :: behind)) m (.stmt s) m'
  | expr {span e m} : Leads limits d (.expr span e) m (.expr e) m
  | assign {span name e m} : Leads limits d (.assign span name e) m (.expr e) m
  | cond {span c yes no m} : Leads limits d (.ifElse span c yes no) m (.expr c) m
  | yes {span c yes no m m' v} : c.eval limits d m = .ok v m' → v ≠ 0 →
      Leads limits d (.ifElse span c yes no) m (.stmt yes) m'
  | no {span c yes no m m'} : c.eval limits d m = .ok 0 m' →
      Leads limits d (.ifElse span c yes (some no)) m (.stmt no) m'
  | test {span c body n m m'} :
      Eval.Rounds (c.eval limits d) (body.exec limits d) n m m' → n ≤ limits.clock →
      Leads limits d (.loop span c body) m (.expr c) m'
  | body {span c body n m m₁ m' v} :
      Eval.Rounds (c.eval limits d) (body.exec limits d) n m m₁ → n ≤ limits.clock →
      c.eval limits d m₁ = .ok v m' → v ≠ 0 →
      Leads limits d (.loop span c body) m (.stmt body) m'
  | ret {span e m} : Leads limits d (.ret span (some e)) m (.expr e) m

/-- What a task that has `d + 1` frames hands on to the `d` frames below. -/
inductive Task.Begins (limits : Limits) (d : Nat) : Task → Machine → Task → Machine → Prop
  | left {span l op r m} : Begins limits d (.expr (.binary span l op r)) m (.expr l) m
  | right {span l op r m m' v} : l.eval limits d m = .ok v m' →
      Begins limits d (.expr (.binary span l op r)) m (.expr r) m'
  | callee {span name args m} :
      Begins limits d (.expr (.call span name args)) m (.call span name args) m
  | inside {s m m₁ t m'} : Eval.tick limits s.span m = .ok () m₁ → s.Leads limits d m₁ t m' →
      Begins limits d (.stmt s) m t m'
  | printed {span e m} : Begins limits d (.call span printName [e]) m (.expr e) m
  | argument {span name before e behind f vs m m₁ m'} : name ≠ printName →
      Eval.callee span name (before ++ e :: behind).length m = .ok f m₁ →
      Eval.each (Expr.eval limits d) before m₁ = .ok vs m' →
      Begins limits d (.call span name (before ++ e :: behind)) m (.expr e) m'
  | entered {span name args f vs m m₁ m'} : name ≠ printName →
      Eval.callee span name args.length m = .ok f m₁ →
      Eval.each (Expr.eval limits d) args m₁ = .ok vs m' →
      Begins limits d (.call span name args) m (.stmt f.body)
        { m' with stack := ⟨f.name, .ofPairs f.params vs⟩ :: m'.stack }

/-! ## Reached -/

/-- A task is reached from another one, with so many frames left and in some state. -/
inductive Task.Reaches (limits : Limits) (d₀ : Nat) (t₀ : Task) (m₀ : Machine) :
    Nat → Task → Machine → Prop
  | here : Reaches limits d₀ t₀ m₀ d₀ t₀ m₀
  | deeper {d t m t' m'} : Reaches limits d₀ t₀ m₀ (d + 1) t m → t.Begins limits d m t' m' →
      Reaches limits d₀ t₀ m₀ d t' m'

/-- The state in which the body of a program begins. -/
def Program.entry (p : Program) : Machine := { p.start with stack := mainRecord :: p.start.stack }

/-- A run comes to a task, with so many frames left and in some state. -/
def Program.Reaches (limits : Limits) (p : Program) : Nat → Task → Machine → Prop :=
  Task.Reaches limits limits.frames (.stmt p.body) p.entry

theorem Task.Reaches.of_begins {limits : Limits} {d d' : Nat} {t t₁ t' : Task}
    {m m₁ m' : Machine} (hfirst : t.Begins limits d m t₁ m₁)
    (h : Reaches limits d t₁ m₁ d' t' m') : Reaches limits (d + 1) t m d' t' m' := by
  induction h with
  | here => exact .deeper .here hfirst
  | deeper _ hlast ih => exact .deeper ih hlast

/-! ## Rows and rounds -/

/-- A property of a computation, its log and the state it begins in that goes through `thenOf`. -/
structure Log.Composable (P : {α : Type} → Eval α → Log → Machine → Prop) : Prop where
  pure : ∀ {α : Type} (a : α) (m : Machine), P (Pure.pure a) .nothing m
  unfinished : ∀ {α : Type} (m : Machine), P (throw .unfinished : Eval α) .nothing m
  thenOf : ∀ {α β : Type} {x : Eval α} {log : Log} {f : α → Eval β} {next : α → Log} {m : Machine},
    P x log m → (∀ a m', x m = .ok a m' → P (f a) (next a) m') →
    P (x >>= f) (.thenOf log x next) m

namespace Log.Composable

variable {P : {α : Type} → Eval α → Log → Machine → Prop} {m₁ : Machine}

/-- What follows has nothing to log. -/
theorem andThen (hP : Composable P) {α β : Type} {x : Eval α} {log : Log} {f : α → Eval β}
    {m : Machine} (hx : P x log m) (hf : ∀ a m', x m = .ok a m' → P (f a) .nothing m') :
    P (x >>= f) log m := by
  rw [← thenOf_nothing log x]
  exact hP.thenOf hx hf

/-- The statements of a row begin where those before them fell through. -/
theorem sequence (hP : Composable P) {exec : Stmt → Eval Completion} {log : Stmt → Log} :
    ∀ (behind before : List Stmt) {m : Machine},
      (∀ done s rest m', before ++ behind = done ++ s :: rest →
        Eval.sequence exec done m₁ = .ok .next m' → P (exec s) (log s) m') →
      Eval.sequence exec before m₁ = .ok .next m →
      P (Eval.sequence exec behind) (Log.sequence exec log behind) m := by
  intro behind
  induction behind with
  | nil => exact fun _ m _ _ => hP.pure Completion.next m
  | cons s rest ih =>
    intro before m hparts hbefore
    refine hP.thenOf (hparts before s rest m rfl hbefore) ?_
    intro completion m' hs
    cases completion with
    | returned v => exact hP.pure (Completion.returned v) m'
    | next =>
      refine ih (before ++ [s]) ?_ ?_
      · intro done s' rest' m₂ heq hdone
        rw [List.append_assoc] at heq
        exact hparts done s' rest' m₂ heq hdone
      · rw [Eval.sequence_append, Eval.andThen_of_next hbefore, Eval.sequence_single]
        exact hs

/-- The expressions of a row begin where those before them have their values. -/
theorem each (hP : Composable P) {eval : Expr → Eval Int} {log : Expr → Log} :
    ∀ (behind before : List Expr) {vs : List Int} {m : Machine},
      (∀ done e rest vs m', before ++ behind = done ++ e :: rest →
        Eval.each eval done m₁ = .ok vs m' → P (eval e) (log e) m') →
      Eval.each eval before m₁ = .ok vs m →
      P (Eval.each eval behind) (Log.each eval log behind) m := by
  intro behind
  induction behind with
  | nil => exact fun _ _ m _ _ => hP.pure [] m
  | cons e rest ih =>
    intro before vs m hparts hbefore
    refine hP.thenOf (hparts before e rest vs m rfl hbefore) ?_
    intro v m' he
    refine hP.andThen (ih (before ++ [e]) ?_ (Eval.each_concat hbefore he)) ?_
    · intro done e' rest' vs' m₂ heq hdone
      rw [List.append_assoc] at heq
      exact hparts done e' rest' vs' m₂ heq hdone
    · exact fun vs' m₂ _ => hP.pure (v :: vs') m₂

/-- The rounds of a loop begin where those before them fell through. -/
theorem whileNonzero (hP : Composable P) {cond : Eval Int} {condLog : Log} {body : Eval Completion}
    {bodyLog : Log} {last : Nat}
    (hcond : ∀ n m, n ≤ last → Eval.Rounds cond body n m₁ m → P cond condLog m)
    (hbody : ∀ n m v m', n ≤ last → Eval.Rounds cond body n m₁ m → cond m = .ok v m' → v ≠ 0 →
      P body bodyLog m') :
    ∀ {k n : Nat} {m : Machine}, n + k = last + 1 → Eval.Rounds cond body n m₁ m →
      P (Eval.whileNonzero cond body k) (Log.whileNonzero cond condLog body bodyLog k) m := by
  intro k
  induction k with
  | zero => exact fun _ _ => hP.unfinished _
  | succ k ih =>
    intro n m hn hrounds
    have hle : n ≤ last := by omega
    refine hP.thenOf (hcond n m hle hrounds) ?_
    intro v m₂ hc
    by_cases hv : v = 0
    · simp only [hv, if_true]
      exact hP.pure Completion.next m₂
    · simp only [hv, if_false]
      refine hP.thenOf (hbody n m v m₂ hle hrounds hc hv) ?_
      intro completion m₃ hround
      cases completion with
      | returned v => exact hP.pure (Completion.returned v) m₃
      | next => exact ih (by omega) (hrounds.more hc hv hround)

end Log.Composable

/-! ## Nothing is missed -/

/-- Every state of the log is one in which a statement reached from the task begins. -/
def Log.Reached (limits : Limits) (d : Nat) (t : Task) (m : Machine) (log : List Machine) : Prop :=
  ∀ b ∈ log, ∃ d' s, t.Reaches limits d m d' (.stmt s) b

namespace Log

variable {limits : Limits} {d : Nat} {t t' : Task} {m m' : Machine} {α : Type}

theorem reached_nothing : Reached limits d t m [] := nofun

theorem reached_begins (hfirst : t.Begins limits d m t' m') {log : List Machine}
    (h : Reached limits d t' m' log) : Reached limits (d + 1) t m log := by
  intro b hb
  obtain ⟨d', s, hs⟩ := h b hb
  exact ⟨d', s, .of_begins hfirst hs⟩

/-- What is logged of two computations in a row is reached if the log of the second one is, from
    wherever the first one leads. -/
theorem reached_thenOf {log : Log} {x : Eval α} {next : α → Log}
    {m₀ : Machine} (hlog : Reached limits d t m (log m₀))
    (hnext : ∀ a m', x m₀ = .ok a m' → Reached limits d t m (next a m')) :
    Reached limits d t m (thenOf log x next m₀) := by
  cases h : x m₀ with
  | error halt m' =>
    rw [thenOf_of_error h]
    exact hlog
  | ok a m' =>
    rw [thenOf_of_ok h]
    intro b hb
    rcases List.mem_append.mp hb with hb | hb
    · exact hlog b hb
    · exact hnext a m' h b hb

theorem composable_reached (limits : Limits) (d : Nat) (t : Task) (m : Machine) :
    Composable fun {α} (_ : Eval α) log m' => Reached limits d t m (log m') where
  pure := fun _ _ => reached_nothing
  unfinished := fun _ => reached_nothing
  thenOf := reached_thenOf

end Log

/-- With `d` frames, what the logs tell of the evaluator is reached. -/
structure EvaluatorReached (limits : Limits) (d : Nat) : Prop where
  eval : ∀ (e : Expr) m, Log.Reached limits d (.expr e) m (e.begun limits d m)
  exec : ∀ (s : Stmt) m, Log.Reached limits d (.stmt s) m (s.begun limits d m)
  call : ∀ span name args m,
    Log.Reached limits d (.call span name args) m (callBegun limits d span name args m)

section Evaluator

variable {limits : Limits} {d : Nat}

theorem eval_reached (h : EvaluatorReached limits d) (e : Expr) (m : Machine) :
    Log.Reached limits (d + 1) (.expr e) m (e.begun limits (d + 1) m) := by
  cases e with
  | lit => exact Log.reached_nothing
  | var => exact Log.reached_nothing
  | stray => exact Log.reached_nothing
  | call span name args => exact Log.reached_begins .callee (h.call span name args m)
  | binary span left op right =>
    apply Log.reached_thenOf (Log.reached_begins .left (h.eval left m))
    intro l m' hl
    exact Log.reached_begins (.right hl) (h.eval right m')

theorem exec_reached (h : EvaluatorReached limits d) (s : Stmt) (m : Machine) :
    Log.Reached limits (d + 1) (.stmt s) m (s.begun limits (d + 1) m) := by
  unfold Stmt.begun
  apply Log.reached_thenOf
  · intro b hb
    obtain rfl : b = m := List.mem_singleton.mp hb
    exact ⟨d + 1, s, .here⟩
  · intro _ m₁ htick
    have hinside : ∀ t' m', s.Leads limits d m₁ t' m' →
        (Task.stmt s).Begins limits d m t' m' := fun t' m' hleads => .inside htick hleads
    cases s with
    | block span body =>
      refine (Log.composable_reached limits (d + 1) _ m).sequence body [] ?_ rfl
      rintro done s rest m' rfl hdone
      exact Log.reached_begins (hinside _ _ (.block done hdone)) (h.exec s m')
    | expr span e => exact Log.reached_begins (hinside _ _ .expr) (h.eval e m₁)
    | assign span name value => exact Log.reached_begins (hinside _ _ .assign) (h.eval value m₁)
    | ifElse span cond yes no =>
      apply Log.reached_thenOf (Log.reached_begins (hinside _ _ .cond) (h.eval cond m₁))
      intro v m' hcond
      by_cases hv : v = 0
      · subst hv
        simp only [if_true]
        cases no with
        | none => exact Log.reached_nothing
        | some no => exact Log.reached_begins (hinside _ _ (.no hcond)) (h.exec no m')
      · simp only [hv, if_false]
        exact Log.reached_begins (hinside _ _ (.yes hcond hv)) (h.exec yes m')
    | loop span cond body =>
      refine (Log.composable_reached limits (d + 1) _ m).whileNonzero ?_ ?_ (Nat.zero_add _) .none
      · intro n m' hn hrounds
        exact Log.reached_begins (hinside _ _ (.test hrounds hn)) (h.eval cond m')
      · intro n m₂ v m' hn hrounds hcond hv
        exact Log.reached_begins (hinside _ _ (.body hrounds hn hcond hv)) (h.exec body m')
    | ret span value =>
      cases value with
      | none => exact Log.reached_nothing
      | some e => exact Log.reached_begins (hinside _ _ .ret) (h.eval e m₁)
    | stray span label => exact Log.reached_nothing

theorem call_reached (h : EvaluatorReached limits d) (span : Span) (name : String)
    (args : List Expr) (m : Machine) :
    Log.Reached limits (d + 1) (.call span name args) m
      (callBegun limits (d + 1) span name args m) := by
  unfold callBegun
  by_cases hname : name = printName
  · subst hname
    rw [if_pos rfl]
    rcases args with _ | ⟨e, _ | ⟨e', rest⟩⟩
    · exact Log.reached_nothing
    · exact Log.reached_begins .printed (h.eval e m)
    · exact Log.reached_nothing
  · rw [if_neg hname]
    apply Log.reached_thenOf Log.reached_nothing
    intro f m₁ hcallee
    apply Log.reached_thenOf
    · refine (Log.composable_reached limits (d + 1) _ m).each args [] ?_ rfl
      rintro done e rest vs m' rfl hdone
      exact Log.reached_begins (.argument hname hcallee hdone) (h.eval e m')
    · intro vs m' hargs
      exact Log.reached_begins (.entered hname hcallee hargs) (h.exec f.body _)

/-- By induction on the frames: the log of an evaluation tells of what is reached. -/
theorem evaluator_reached (limits : Limits) : ∀ d, EvaluatorReached limits d := by
  intro d
  induction d with
  | zero =>
    exact {
      eval := fun e m => by rw [Expr.begun]; exact Log.reached_nothing
      exec := fun s m => by rw [Stmt.begun]; exact Log.reached_nothing
      call := fun span name args m => by rw [callBegun]; exact Log.reached_nothing }
  | succ d ih => exact { eval := eval_reached ih, exec := exec_reached ih, call := call_reached ih }

end Evaluator

/-- **Nothing is missed**: wherever a run begins a statement, it has come to that statement. -/
theorem reaches_of_begun {limits : Limits} {p : Program} {b : Machine}
    (hb : b ∈ p.begun limits) : ∃ d s, p.Reaches limits d (.stmt s) b :=
  (evaluator_reached limits limits.frames).exec p.body p.entry b hb

end MiniLang
