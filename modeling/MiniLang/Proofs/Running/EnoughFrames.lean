/-
  A finite budget ends every run.

  Nothing in a program bounds its loops and its calls, but the body of every call is a statement,
  and every statement counts a step.  So between two steps an evaluation nests only as deeply as
  one tree, and the number of steps that are left bounds the number of trees.

  1. **Depth** — `Expr.depth`, `Stmt.depth`: the nested evaluations of a tree, apart from the
     bodies of the functions that it calls.
  2. **Room** — `Machine.Room limits h n m`: in the state `m`, the steps that are left buy no more
     than `n` frames at a price of `h` each, and no function that can be called is deeper than `h`.
     No evaluation takes the room away.
  3. **Enough frames** — `Enough limits h n x`: with this room `x` does not run out of frames.  The
     measure is the room and the depth of the tree together: a step gives up `h` frames of the
     room, which is what the body of a call can ask for, and everything else goes down the tree.
  4. **Whole runs** — `Program.framesWithin` is a number of frames with which a budget of `k` steps
     is used up before them, and every larger number gives the same run.
-/
import MiniLang.Proofs.Running.MoreFrames

namespace MiniLang

/-! ## Depth -/

mutual

/-- The nested evaluations of an expression.  A call takes two, one for the expression and one for
    the call itself, and leaves one at least to the body of the function. -/
def Expr.depth : Expr → Nat
  | .binary _ left _ right => max left.depth right.depth + 1
  | .call _ _ args => Expr.depths args + 2
  | _ => 1

/-- The depth of the deepest of some expressions, and one if there is none. -/
def Expr.depths : List Expr → Nat
  | [] => 1
  | e :: rest => max e.depth (Expr.depths rest)

end

mutual

/-- The nested evaluations of a statement. -/
def Stmt.depth : Stmt → Nat
  | .block _ body => Stmt.depths body + 1
  | .expr _ e => e.depth + 1
  | .assign _ _ value => value.depth + 1
  | .ifElse _ cond yes none => max cond.depth yes.depth + 1
  | .ifElse _ cond yes (some no) => max cond.depth (max yes.depth no.depth) + 1
  | .loop _ cond body => max cond.depth body.depth + 1
  | .ret _ (some e) => e.depth + 1
  | _ => 1

/-- The depth of the deepest of some statements. -/
def Stmt.depths : List Stmt → Nat
  | [] => 0
  | s :: rest => max s.depth (Stmt.depths rest)

end

theorem Expr.depth_le_depths : ∀ {es : List Expr}, ∀ e ∈ es, e.depth ≤ Expr.depths es := by
  intro es
  induction es with
  | nil => exact nofun
  | cons first rest ih =>
    intro e he
    rw [Expr.depths]
    rcases List.mem_cons.mp he with rfl | he
    · exact Nat.le_max_left _ _
    · exact Nat.le_trans (ih e he) (Nat.le_max_right _ _)

theorem Expr.depths_pos : ∀ es : List Expr, 0 < Expr.depths es := by
  intro es
  induction es with
  | nil => exact Nat.one_pos
  | cons e rest ih =>
    rw [Expr.depths]
    exact Nat.lt_of_lt_of_le ih (Nat.le_max_right _ _)

theorem Stmt.depth_le_depths : ∀ {ss : List Stmt}, ∀ s ∈ ss, s.depth ≤ Stmt.depths ss := by
  intro ss
  induction ss with
  | nil => exact nofun
  | cons first rest ih =>
    intro s hs
    rw [Stmt.depths]
    rcases List.mem_cons.mp hs with rfl | hs
    · exact Nat.le_max_left _ _
    · exact Nat.le_trans (ih s hs) (Nat.le_max_right _ _)

theorem Stmt.depth_pos (s : Stmt) : 0 < s.depth := by
  unfold depth
  split <;> exact Nat.succ_pos _

/-! ## Room -/

/-- What bounds the calls that an evaluation can still make in a state. -/
structure Machine.Room (limits : Limits) (h n : Nat) (m : Machine) : Prop where
  time : (limits.clock - m.steps) * h ≤ n
  functions : ∀ name f, m.callee? name = some f → f.body.depth ≤ h

namespace Machine

/-- A name that is assigned calls nothing any more. -/
theorem callee?_assign {m : Machine} {name other : String} {v : Int} {f : FunctionDef} :
    (m.assign name v).callee? other = some f → m.callee? other = some f := by
  intro h
  unfold assign at h
  cases hlocal : rebindIn m.stack name v with
  | some stack =>
    rw [hlocal] at h
    exact h
  | none =>
    rw [hlocal, callee?] at h
    dsimp only at h
    by_cases hname : other = name
    · rw [hname, Table.get?_set_self] at h
      cases h
    · rw [Table.get?_set_of_ne _ _ hname] at h
      exact h

/-- Time only gets less, and functions only get lost. -/
theorem lasting_room (limits : Limits) (h n : Nat) :
    Lasting fun m m' => m.Room limits h n → m'.Room limits h n where
  refl := fun _ hroom => hroom
  trans := fun h₁ h₂ hroom => h₂ (h₁ hroom)
  step := by
    intro m hroom
    refine ⟨Nat.le_trans (Nat.mul_le_mul_right h ?_) hroom.time, hroom.functions⟩
    exact Nat.sub_le_sub_left (Nat.le_succ m.steps) limits.clock
  assign := by
    intro m name v hroom
    have hsteps : (m.assign name v).steps = m.steps := by
      unfold assign
      cases rebindIn m.stack name v with
      | none => rfl
      | some stack => rfl
    refine ⟨?_, fun other f hf => hroom.functions other f (callee?_assign hf)⟩
    rw [hsteps]
    exact hroom.time
  emit := fun _ _ hroom => ⟨hroom.time, hroom.functions⟩
  call := by
    intro m record m' hinside hroom
    obtain ⟨htime, hfunctions⟩ := hinside ⟨hroom.time, hroom.functions⟩
    exact ⟨htime, hfunctions⟩

/-- A step that goes through has bought the body of a call. -/
theorem Room.after_step {limits : Limits} {h n : Nat} {m : Machine} (hroom : m.Room limits h n)
    (hstep : m.steps + 1 ≤ limits.clock) :
    h ≤ n ∧ Room limits h (n - h) { m with steps := m.steps + 1 } := by
  have htime := hroom.time
  have hprice : (limits.clock - m.steps) * h = (limits.clock - (m.steps + 1)) * h + h := by
    rw [← Nat.succ_mul]
    congr 1
    omega
  refine ⟨by omega, ?_, hroom.functions⟩
  show (limits.clock - (m.steps + 1)) * h ≤ n - h
  omega

end Machine

/-! ## Enough frames -/

/-- With this room, the computation does not run out of frames. -/
def Enough {α : Type} (limits : Limits) (h n : Nat) (x : Eval α) : Prop :=
  ∀ m, m.Room limits h n → ∀ m', x m ≠ .error .tooDeep m'

/-- The computation takes no room away. -/
abbrev Spares {α : Type} (limits : Limits) (h n : Nat) (x : Eval α) : Prop :=
  Eval.Keeps (fun m m' => m.Room limits h n → m'.Room limits h n) x

namespace Enough

variable {α β : Type} {limits : Limits} {h n : Nat}

theorem pure (a : α) : Enough limits h n (pure a) := fun _ _ _ => nofun

theorem fail (fault : Fault) (span : Span) : Enough (α := α) limits h n (Eval.fail fault span) :=
  fun _ _ _ => nofun

theorem unfinished : Enough (α := α) limits h n (throw .unfinished) := fun _ _ _ => nofun

theorem assign (name : String) (v : Int) : Enough limits h n (Eval.assign name v) :=
  fun _ _ _ => nofun

theorem emit (v : Int) : Enough limits h n (Eval.emit v) := fun _ _ _ => nofun

theorem read (span : Span) (name : String) : Enough limits h n (Eval.read span name) := by
  intro m _ m'
  unfold Eval.read
  cases m.read? name with
  | some v => exact nofun
  | none => exact nofun

theorem operate (span : Span) (op : Token.Kind) (l r : Int) :
    Enough limits h n (Eval.operate span op l r) := by
  unfold Eval.operate
  cases op.apply l r with
  | ok v => exact pure v
  | error fault => exact fail fault span

theorem bind {x : Eval α} {f : α → Eval β} (hspares : Spares limits h n x)
    (hx : Enough limits h n x) (hf : ∀ a, Enough limits h n (f a)) :
    Enough limits h n (x >>= f) := by
  intro m hroom m'
  cases hm : x m with
  | error halt m₁ =>
    rw [Eval.bind_of_error hm]
    intro hdeep
    cases hdeep
    exact hx m hroom m' hm
  | ok a m₁ =>
    have hroom₁ := hspares m hroom
    rw [Eval.after_of_ok hm] at hroom₁
    rw [Eval.bind_of_ok hm]
    exact hf a m₁ hroom₁ m'

/-- What follows a step has the frames that the step has bought. -/
theorem after_tick {span : Span} {f : Unit → Eval α}
    (hf : h ≤ n → Enough limits h (n - h) (f ())) :
    Enough limits h n (Eval.tick limits span >>= f) := by
  intro m hroom m'
  by_cases hstep : m.steps + 1 ≤ limits.clock
  · have htick : Eval.tick limits span m = .ok () { m with steps := m.steps + 1 } := if_pos hstep
    obtain ⟨hle, hroom₁⟩ := hroom.after_step hstep
    rw [Eval.bind_of_ok htick]
    exact hf hle _ hroom₁ m'
  · -- the step that exceeds the clock ends the computation, with frames left
    have htick : ∃ halt m₁, Eval.tick limits span m = .error halt m₁ ∧ halt ≠ .tooDeep := by
      unfold Eval.tick
      simp only [hstep, if_false]
      by_cases hbudget : limits.budget.isSome = true
      · exact ⟨_, _, if_pos hbudget, nofun⟩
      · exact ⟨_, _, if_neg hbudget, nofun⟩
    obtain ⟨halt, m₁, htick, hne⟩ := htick
    rw [Eval.bind_of_error htick]
    intro hdeep
    cases hdeep
    exact hne rfl

/-- A function that is found is no deeper than the room allows. -/
theorem callee {span : Span} {name : String} {args : Nat} {g : FunctionDef → Eval α}
    (hg : ∀ f, f.body.depth ≤ h → Enough limits h n (g f)) :
    Enough limits h n (Eval.callee span name args >>= g) := by
  intro m hroom m'
  rcases Eval.callee_cases span name args m with
    ⟨_, hcallee⟩ | ⟨f, hf, ⟨_, hcallee⟩ | ⟨_, hcallee⟩⟩
  · rw [Eval.bind_of_error hcallee]
    intro hdeep
    cases hdeep
  · rw [Eval.bind_of_ok hcallee]
    exact hg f (hroom.functions name f hf) m hroom m'
  · rw [Eval.bind_of_error hcallee]
    intro hdeep
    cases hdeep

theorem within {x : Eval α} (record : Record) (hx : Enough limits h n x) :
    Enough limits h n (Eval.within record x) := by
  intro m hroom m'
  have hinside := hx { m with stack := record :: m.stack } ⟨hroom.time, hroom.functions⟩
  unfold Eval.within
  cases hm : x { m with stack := record :: m.stack } with
  | ok a m₁ => exact nofun
  | error halt m₁ =>
    intro hdeep
    cases hdeep
    exact hinside m₁ hm

theorem each {eval : Expr → Eval Int} (hspares : ∀ e, Spares limits h n (eval e)) :
    ∀ es, (∀ e ∈ es, Enough limits h n (eval e)) → Enough limits h n (Eval.each eval es) := by
  intro es
  induction es with
  | nil => exact fun _ => pure []
  | cons e rest ih =>
    intro hes
    have hrest := ih fun e' he' => hes e' (.tail e he')
    rw [Eval.each]
    apply bind (hspares e) (hes e (.head rest))
    intro v
    exact bind (.each (Machine.lasting_room limits h n) hspares rest) hrest fun vs => pure (v :: vs)

theorem sequence {exec : Stmt → Eval Completion} (hspares : ∀ s, Spares limits h n (exec s)) :
    ∀ body, (∀ s ∈ body, Enough limits h n (exec s)) →
    Enough limits h n (Eval.sequence exec body) := by
  intro body
  induction body with
  | nil => exact fun _ => pure Completion.next
  | cons s rest ih =>
    intro hbody
    rw [Eval.sequence]
    apply bind (hspares s) (hbody s (.head rest))
    intro completion
    cases completion with
    | next => exact ih fun s' hs' => hbody s' (.tail s hs')
    | returned v => exact pure (Completion.returned v)

theorem whileNonzero {cond : Eval Int} {body : Eval Completion}
    (hspares : Spares limits h n cond) (hspares' : Spares limits h n body)
    (hcond : Enough limits h n cond) (hbody : Enough limits h n body) :
    ∀ rounds, Enough limits h n (Eval.whileNonzero cond body rounds) := by
  intro rounds
  induction rounds with
  | zero => exact unfinished
  | succ rounds ih =>
    rw [Eval.whileNonzero]
    apply bind hspares hcond
    intro v
    by_cases hv : v = 0
    · simp only [hv, if_true]
      exact pure Completion.next
    · simp only [hv, if_false]
      apply bind hspares' hbody
      intro completion
      cases completion with
      | next => exact ih
      | returned v => exact pure (Completion.returned v)

end Enough

/-! ## The evaluator -/

/-- So many frames are enough for every tree that leaves the rest of them to the room.  A statement
    leaves the price of its own step as well. -/
structure EvaluatorEnough (limits : Limits) (h d : Nat) : Prop where
  eval : ∀ n (e : Expr), e.depth + n ≤ d → Enough limits h n (e.eval limits d)
  exec : ∀ n (s : Stmt), 0 < d → s.depth + n ≤ d + h → Enough limits h n (s.exec limits d)
  call : ∀ n span name args, Expr.depths args + 1 + n ≤ d →
    Enough limits h n (callFunction limits d span name args)

section Evaluator

variable {limits : Limits} {h d : Nat}

/-- Every evaluation leaves the room it finds. -/
theorem evaluator_spares (limits : Limits) (h n d : Nat) :
    EvaluatorKeeps (fun m m' => m.Room limits h n → m'.Room limits h n) limits d :=
  evaluator_keeps (Machine.lasting_room limits h n) limits d

theorem eval_enough (hd : EvaluatorEnough limits h d) (n : Nat) (e : Expr)
    (hdepth : e.depth + n ≤ d + 1) : Enough limits h n (e.eval limits (d + 1)) := by
  have hspares := evaluator_spares limits h n d
  cases e with
  | lit span v => exact .pure v
  | var span name => exact .read span name
  | stray span label => exact .fail _ span
  | call span name args =>
    rw [Expr.depth] at hdepth
    exact hd.call n span name args (by omega)
  | binary span left op right =>
    rw [Expr.depth] at hdepth
    rw [Expr.eval]
    apply Enough.bind (hspares.eval left) (hd.eval n left (by omega))
    intro l
    apply Enough.bind (hspares.eval right) (hd.eval n right (by omega))
    intro r
    exact .operate span op l r

theorem exec_enough (hd : EvaluatorEnough limits h d) (n : Nat) (s : Stmt)
    (hdepth : s.depth + n ≤ d + 1 + h) : Enough limits h n (s.exec limits (d + 1)) := by
  unfold Stmt.exec
  apply Enough.after_tick
  intro hle
  have hspares := evaluator_spares limits h (n - h) d
  -- the step is paid, so what is inside has to fit into the frames alone
  have hinside : ∀ s' : Stmt, s'.depth + 1 ≤ s.depth →
      Enough limits h (n - h) (s'.exec limits d) := by
    intro s' hs'
    have hpos := s'.depth_pos
    exact hd.exec (n - h) s' (by omega) (by omega)
  cases s with
  | block span body =>
    apply Enough.sequence hspares.exec
    intro s' hs'
    have hle' := Stmt.depth_le_depths s' hs'
    exact hinside s' (by rw [Stmt.depth]; omega)
  | expr span e =>
    rw [Stmt.depth] at hdepth
    exact .bind (hspares.eval e) (hd.eval _ e (by omega)) fun _ => .pure Completion.next
  | assign span name value =>
    rw [Stmt.depth] at hdepth
    apply Enough.bind (hspares.eval value) (hd.eval _ value (by omega))
    intro v
    apply Enough.bind (.assign (Machine.lasting_room limits h (n - h)) name v) (.assign name v)
    exact fun _ => .pure Completion.next
  | ifElse span cond yes no =>
    cases no with
    | none =>
      rw [Stmt.depth] at hdepth hinside
      apply Enough.bind (hspares.eval cond) (hd.eval _ cond (by omega))
      intro v
      by_cases hv : v = 0
      · simp only [hv, if_true]
        exact .pure Completion.next
      · simp only [hv, if_false]
        exact hinside yes (by omega)
    | some no =>
      rw [Stmt.depth] at hdepth hinside
      apply Enough.bind (hspares.eval cond) (hd.eval _ cond (by omega))
      intro v
      by_cases hv : v = 0
      · simp only [hv, if_true]
        exact hinside no (by omega)
      · simp only [hv, if_false]
        exact hinside yes (by omega)
  | loop span cond body =>
    rw [Stmt.depth] at hdepth hinside
    exact .whileNonzero (hspares.eval cond) (hspares.exec body) (hd.eval _ cond (by omega))
      (hinside body (by omega)) _
  | ret span value =>
    cases value with
    | none => exact .pure (Completion.returned 0)
    | some e =>
      rw [Stmt.depth] at hdepth
      exact .bind (hspares.eval e) (hd.eval _ e (by omega)) fun v => .pure (Completion.returned v)
  | stray span label => exact .fail _ span

theorem call_enough (hd : EvaluatorEnough limits h d) (n : Nat) (span : Span) (name : String)
    (args : List Expr) (hdepth : Expr.depths args + 1 + n ≤ d + 1) :
    Enough limits h n (callFunction limits (d + 1) span name args) := by
  have hspares := evaluator_spares limits h n d
  have hargs : ∀ e ∈ args, Enough limits h n (e.eval limits d) := by
    intro e he
    have hle := Expr.depth_le_depths e he
    exact hd.eval n e (by omega)
  unfold callFunction
  by_cases hname : name = printName
  · rw [if_pos hname]
    rcases args with _ | ⟨e, _ | ⟨e', rest⟩⟩
    · exact .fail _ span
    · apply Enough.bind (hspares.eval e) (hargs e (.head []))
      intro v
      exact .bind (.emit (Machine.lasting_room limits h n) v) (.emit v) fun _ => .pure 0
    · exact .fail _ span
  · rw [if_neg hname]
    apply Enough.callee
    intro f hf
    apply Enough.bind (.each (Machine.lasting_room limits h n) hspares.eval args)
      (.each hspares.eval args hargs)
    intro vs
    -- the body is as deep as the price of the step that it begins with
    have hpos := Expr.depths_pos args
    have hbody : Enough limits h n (f.body.exec limits d) :=
      hd.exec n f.body (by omega) (by omega)
    apply Enough.bind (.within (Machine.lasting_room limits h n) _ (hspares.exec f.body))
      (.within _ hbody)
    intro completion
    cases completion with
    | next => exact .pure 0
    | returned v => exact .pure v

/-- By induction on the frames. -/
theorem evaluator_enough (limits : Limits) (h : Nat) : ∀ d, EvaluatorEnough limits h d := by
  intro d
  induction d with
  | zero =>
    exact {
      eval := by
        intro n e hdepth
        have hpos : 0 < e.depth := by unfold Expr.depth; split <;> exact Nat.succ_pos _
        omega
      exec := by
        intro n s hpos
        omega
      call := by
        intro n span name args hdepth
        omega }
  | succ d ih =>
    exact {
      eval := eval_enough ih
      exec := fun n s _ hdepth => exec_enough ih n s hdepth
      call := call_enough ih }

end Evaluator

/-! ## Whole runs -/

namespace Program

/-- The depth of the deepest body of a function. -/
def callDepth (program : Program) : Nat := Stmt.depths (program.functions.map (·.body))

/-- As many frames as a run with a budget of `k` steps can use. -/
def framesWithin (program : Program) (k : Int) : Nat :=
  program.body.depth + k.toNat * program.callDepth

/-- A function that is known was defined, or was known before. -/
theorem callee?_define : ∀ {fs : List FunctionDef} {t : Table Symbol} {name : String}
    {f : FunctionDef},
    (fs.foldl (fun t f => t.set f.name (.function f)) t).get? name = some (.function f) →
    f ∈ fs ∨ t.get? name = some (.function f) := by
  intro fs
  induction fs with
  | nil => exact fun h => .inr h
  | cons first rest ih =>
    intro t name f h
    rcases ih h with hrest | hset
    · exact .inl (.tail first hrest)
    · dsimp only at hset
      by_cases hname : name = first.name
      · rw [hname, Table.get?_set_self] at hset
        cases hset
        exact .inl (.head rest)
      · rw [Table.get?_set_of_ne _ _ hname] at hset
        exact .inr hset

/-- A run begins with the room that its budget pays for. -/
theorem room_start (program : Program) (limits : Limits) :
    program.start.Room limits program.callDepth (limits.clock * program.callDepth) where
  time := Nat.mul_le_mul_right _ (Nat.sub_le limits.clock program.start.steps)
  functions := by
    intro name f hf
    have hget : program.start.globals.get? name = some (.function f) := by
      unfold Machine.callee? at hf
      split at hf
      · rename_i g hg
        cases hf
        exact hg
      · cases hf
    rcases callee?_define hget with hmem | hempty
    · exact Stmt.depth_le_depths f.body (List.mem_map_of_mem hmem)
    · cases hempty

/-- With so many frames a run does not run out of them. -/
theorem run_not_tooDeep (program : Program) (limits : Limits)
    (hframes : program.body.depth + limits.clock * program.callDepth ≤ limits.frames) :
    (program.run limits).halt ≠ some .tooDeep := by
  have hpos := program.body.depth_pos
  have hwork : Enough limits program.callDepth (limits.clock * program.callDepth)
      (program.work limits) :=
    .within mainRecord ((evaluator_enough limits program.callDepth limits.frames).exec _
      program.body (by omega) (by omega))
  cases hrun : program.work limits program.start with
  | ok c m =>
    rw [run_of_ok hrun]
    exact nofun
  | error halt m =>
    rw [run_of_error hrun]
    intro hdeep
    cases hdeep
    exact hwork _ (program.room_start limits) m hrun

/-- Nothing counts more than one step beyond the clock, and a budget is never given up. -/
theorem run_within_budget (program : Program) (k : Int) (patience frames : Nat) :
    (program.run ⟨some k, patience, frames⟩).steps ≤ k.toNat + 1 ∧
    (program.run ⟨some k, patience, frames⟩).halt ≠ some .unfinished := by
  rcases run_compared program ⟨some k, patience, frames⟩ ⟨some k, patience, frames⟩ rfl
    (Nat.le_refl _) with ⟨-, hsteps, hclock⟩ | ⟨b, span, -, hhalt, hsteps, -⟩
  · refine ⟨Nat.le_succ_of_le hsteps, ?_⟩
    intro hhalt
    exact hclock _ hhalt .patience
  · refine ⟨Nat.le_of_eq hsteps, ?_⟩
    rw [hhalt]
    exact nofun

end Program

/-- **A finite budget ends every run.**  However many frames there are, no run counts more than one
    step beyond its budget.  And for a budget of `k` steps every program has an outcome that it
    comes to with `framesWithin k` frames and with any larger number: the program reaches its end or
    fails by itself, and neither frames nor patience cut it short. -/
theorem budget_ends_run (program : Program) (k : Int) :
    (∀ patience frames, (program.run ⟨some k, patience, frames⟩).steps ≤ k.toNat + 1) ∧
    ∃ outcome : Outcome,
      (∀ patience extra,
        program.run ⟨some k, patience, program.framesWithin k + extra⟩ = outcome) ∧
      outcome.steps ≤ k.toNat + 1 ∧
      (outcome.halt = none ∨ ∃ fault span calls, outcome.halt = some (.failed fault span calls)) := by
  have hdeep : (program.run ⟨some k, 0, program.framesWithin k⟩).halt ≠ some .tooDeep :=
    program.run_not_tooDeep _ (Nat.le_refl _)
  obtain ⟨hsteps, hfinished⟩ := program.run_within_budget k 0 (program.framesWithin k)
  refine ⟨fun patience frames => (program.run_within_budget k patience frames).1,
    program.run ⟨some k, 0, program.framesWithin k⟩, ?_, hsteps, ?_⟩
  · intro patience extra
    have hsame : program.run ⟨some k, 0, program.framesWithin k⟩ =
        program.run ⟨some k, patience, program.framesWithin k + extra⟩ :=
      run_of_more_frames program ⟨rfl, rfl⟩ (Nat.le_add_right _ extra) hdeep
    exact hsame.symm
  · cases hhalt : (program.run ⟨some k, 0, program.framesWithin k⟩).halt with
    | none => exact .inl rfl
    | some halt =>
      right
      cases halt with
      | failed fault span calls => exact ⟨fault, span, calls, rfl⟩
      | tooDeep => exact absurd hhalt hdeep
      | unfinished => exact absurd hhalt hfinished

/-- `function f(n) { f(f(n)); } f(0);`, which never returns: the budget stops it inside the second
    call. -/
example :
    let program : Program := {
      span := .nowhere
      functions := [⟨.nowhere, "f", ["n"], .block .nowhere
        [.expr .nowhere (.call .nowhere "f" [.call .nowhere "f" [.var .nowhere "n"]])]⟩]
      body := .block .nowhere [.expr .nowhere (.call .nowhere "f" [.lit .nowhere 0])] }
    (program.run ⟨some 4, 0, program.framesWithin 4⟩).halt =
      some (.failed .stepLimit .nowhere ["f", "f", "<main>"]) := by
  decide +kernel

end MiniLang
