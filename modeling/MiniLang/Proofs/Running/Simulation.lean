/-
  Running programs that differ in some statements.

  Two programs may differ in statements that do the same work in another way.  Their runs then go
  through states that differ in the bodies of the functions known, and possibly in the number of
  steps.

  1. **States** — `m.Alike S m'`: the same names stand for the same values and for functions with
     bodies related by `S`; the calls and the output are the same.  The steps are not compared.
  2. **Plain computations** — those that neither look at bodies nor count steps.
  3. **Simulations** — `Simulation S limits Rel`: what a relation between a computation of the one
     program and the computations of the other one, a family over all limits and numbers of frames,
     has to respect.  `Rel d V` relates those that end in values related by `V`; `d` is the number
     of frames on the left.  Rows and branches need only what is `Composable`.
  4. **The evaluator** — statements of one form with related parts (`Stmt.Layer`) are related
     because their parts are; so it is enough to relate those that differ at the top
     (`Simulation.evaluator`).
-/
import Mathlib.Data.List.Forall2
import MiniLang.Proofs.Budget.Truncation
import MiniLang.Proofs.Running.Congruence

namespace MiniLang

/-! ## Tables -/

/-- The same names with related entries, in the same order. -/
def Table.Paired {α : Type} (R : α → α → Prop) (t t' : Table α) : Prop :=
  List.Forall₂ (fun entry entry' => entry.1 = entry'.1 ∧ R entry.2 entry'.2) t t'

namespace Table

variable {α : Type} {R : α → α → Prop} {t t' : Table α}

theorem get?_paired (h : Paired R t t') (name : String) :
    (t.get? name = none ∧ t'.get? name = none) ∨
    ∃ a a', t.get? name = some a ∧ t'.get? name = some a' ∧ R a a' := by
  induction h with
  | nil => exact .inl ⟨rfl, rfl⟩
  | @cons entry entry' rest rest' hentry _ ih =>
    obtain ⟨key, a⟩ := entry
    obtain ⟨key', a'⟩ := entry'
    obtain ⟨rfl, ha⟩ := hentry
    rw [get?, get?]
    by_cases hkey : key = name
    · rw [if_pos hkey, if_pos hkey]
      exact .inr ⟨a, a', rfl, rfl, ha⟩
    · rw [if_neg hkey, if_neg hkey]
      exact ih

theorem set_paired (h : Paired R t t') (name : String) {a a' : α} (ha : R a a') :
    Paired R (t.set name a) (t'.set name a') := by
  induction h with
  | nil => exact .cons ⟨rfl, ha⟩ .nil
  | @cons entry entry' rest rest' hentry hrest ih =>
    obtain ⟨key, b⟩ := entry
    obtain ⟨key', b'⟩ := entry'
    obtain ⟨rfl, hb⟩ := hentry
    rw [set, set]
    by_cases hkey : key = name
    · rw [if_pos hkey, if_pos hkey]
      exact .cons ⟨rfl, ha⟩ hrest
    · rw [if_neg hkey, if_neg hkey]
      exact .cons ⟨rfl, hb⟩ ih

end Table

/-! ## States -/

section

variable (S : Stmt → Stmt → Prop)

/-- Two functions that differ at most in their bodies, which are related. -/
structure FunctionDef.Alike (f f' : FunctionDef) : Prop where
  span : f.span = f'.span
  name : f.name = f'.name
  params : f.params = f'.params
  body : S f.body f'.body

/-- Two programs that differ at most in bodies, which are related. -/
structure Program.Alike (p p' : Program) : Prop where
  span : p.span = p'.span
  functions : List.Forall₂ (FunctionDef.Alike S) p.functions p'.functions
  body : S p.body p'.body

/-- The same value, or functions alike. -/
inductive Symbol.Alike : Symbol → Symbol → Prop
  | value (v : Int) : Alike (.variable v) (.variable v)
  | definition {f f' : FunctionDef} : f.Alike S f' → Alike (.function f) (.function f')

/-- The same state, but for the bodies of functions and for the steps. -/
structure Machine.Alike (m m' : Machine) : Prop where
  globals : Table.Paired (Symbol.Alike S) m.globals m'.globals
  stack : m.stack = m'.stack
  printed : m.printed = m'.printed

end

namespace Machine

variable {S : Stmt → Stmt → Prop} {m m' : Machine}

namespace Alike

theorem read? (h : m.Alike S m') (name : String) : m.read? name = m'.read? name := by
  rw [Machine.read?, Machine.read?, h.stack]
  cases localIn m'.stack name with
  | some v => rfl
  | none =>
    rcases Table.get?_paired h.globals name with ⟨hn, hn'⟩ | ⟨a, a', ha, ha', halike⟩
    · rw [hn, hn']
    · rw [ha, ha']
      cases halike with
      | value v => rfl
      | definition _ => rfl

theorem callee? (h : m.Alike S m') (name : String) :
    (m.callee? name = none ∧ m'.callee? name = none) ∨
    ∃ f f', m.callee? name = some f ∧ m'.callee? name = some f' ∧ f.Alike S f' := by
  rw [Machine.callee?, Machine.callee?]
  rcases Table.get?_paired h.globals name with ⟨hn, hn'⟩ | ⟨a, a', ha, ha', halike⟩
  · rw [hn, hn']
    exact .inl ⟨rfl, rfl⟩
  · rw [ha, ha']
    cases halike with
    | value v => exact .inl ⟨rfl, rfl⟩
    | definition hf => exact .inr ⟨_, _, rfl, rfl, hf⟩

theorem assign (h : m.Alike S m') (name : String) (v : Int) :
    (m.assign name v).Alike S (m'.assign name v) := by
  unfold Machine.assign
  rw [h.stack]
  cases rebindIn m'.stack name v with
  | some stack => exact { h with stack := rfl }
  | none => exact ⟨Table.set_paired h.globals name (.value v), rfl, h.printed⟩

theorem emit (h : m.Alike S m') (v : Int) :
    Alike S { m with printed := m.printed.push v } { m' with printed := m'.printed.push v } :=
  ⟨h.globals, h.stack, congrArg (·.push v) h.printed⟩

theorem enter (h : m.Alike S m') (record : Record) :
    Alike S { m with stack := record :: m.stack } { m' with stack := record :: m'.stack } :=
  ⟨h.globals, congrArg (record :: ·) h.stack, h.printed⟩

theorem leave (h : m.Alike S m') :
    Alike S { m with stack := m.stack.tail } { m' with stack := m'.stack.tail } :=
  ⟨h.globals, congrArg List.tail h.stack, h.printed⟩

/-- How many steps were counted does not matter. -/
theorem steps (h : m.Alike S m') (n n' : Nat) :
    Alike S { m with steps := n } { m' with steps := n' } := ⟨h.globals, h.stack, h.printed⟩

theorem calls (h : m.Alike S m') : m.calls = m'.calls := by
  rw [Machine.calls, Machine.calls, h.stack]

theorem output (h : m.Alike S m') : m.output = m'.output := by
  rw [Machine.output, Machine.output, h.printed]

theorem globalVars (h : m.Alike S m') : m.globalVars = m'.globalVars := by
  have hglobals := h.globals
  unfold Machine.globalVars
  unfold Table.Paired at hglobals
  generalize m.globals = t at hglobals ⊢
  generalize m'.globals = t' at hglobals ⊢
  induction hglobals with
  | nil => rfl
  | @cons entry entry' rest rest' hentry _ ih =>
    obtain ⟨key, a⟩ := entry
    obtain ⟨key', a'⟩ := entry'
    obtain ⟨hkey, ha⟩ := hentry
    simp only at hkey ha
    subst hkey
    cases ha with
    | value v => rw [List.filterMap_cons, List.filterMap_cons, ih]
    | definition _ => rw [List.filterMap_cons, List.filterMap_cons, ih]

/-- Functions alike are made known one after the other. -/
theorem define {functions functions' : List FunctionDef}
    (hfunctions : List.Forall₂ (FunctionDef.Alike S) functions functions') :
    ∀ {m m' : Machine}, m.Alike S m' → (m.define functions).Alike S (m'.define functions') := by
  induction hfunctions with
  | nil => exact fun h => h
  | @cons f f' rest rest' hf _ ih =>
    intro m m' h
    have hfirst : Machine.Alike S { m with globals := m.globals.set f.name (.function f) }
        { m' with globals := m'.globals.set f'.name (.function f') } := by
      rw [← hf.name]
      exact ⟨Table.set_paired h.globals f.name (.definition hf), h.stack, h.printed⟩
    exact ih hfirst

end Alike

end Machine

/-- Programs alike start in states alike. -/
theorem Program.Alike.start {S : Stmt → Stmt → Prop} {p p' : Program} (h : p.Alike S p') :
    p.start.Alike S p'.start :=
  .define h.functions ⟨.nil, rfl, rfl⟩

/-- Two ways for computations to end: alike, and in related values or for the same reason. -/
inductive EndAlike {α : Type} (S : Stmt → Stmt → Prop) (V : α → α → Prop) :
    EStateM.Result Halt Machine α → EStateM.Result Halt Machine α → Prop
  | ok {a a' m m'} : m.Alike S m' → V a a' → EndAlike S V (.ok a m) (.ok a' m')
  | error {halt m m'} : m.Alike S m' → EndAlike S V (.error halt m) (.error halt m')

/-- Inside a call and behind it. -/
theorem EndAlike.within {α : Type} {S : Stmt → Stmt → Prop} {V : α → α → Prop} {x y : Eval α}
    {record : Record} {m m' : Machine}
    (h : EndAlike S V (x { m with stack := record :: m.stack })
      (y { m' with stack := record :: m'.stack })) :
    EndAlike S V (Eval.within record x m) (Eval.within record y m') := by
  unfold Eval.within
  generalize x { m with stack := record :: m.stack } = r at h
  generalize y { m' with stack := record :: m'.stack } = r' at h
  cases h with
  | ok hm ha => exact .ok hm.leave ha
  | error hm => exact .error hm.leave

/-- Runs whose work ends alike show the same output, globals and failure. -/
theorem EndAlike.run {S : Stmt → Stmt → Prop} {V : Completion → Completion → Prop}
    {p p' : Program} {limits limits' : Limits}
    (h : EndAlike S V (p.work limits p.start) (p'.work limits' p'.start)) :
    (p.run limits).output = (p'.run limits').output ∧
    (p.run limits).globals = (p'.run limits').globals ∧
    (p.run limits).halt = (p'.run limits').halt := by
  generalize hx : p.work limits p.start = r at h
  generalize hy : p'.work limits' p'.start = r' at h
  cases h with
  | ok hm _ =>
    rw [Program.run_of_ok hx, Program.run_of_ok hy]
    exact ⟨hm.output, hm.globalVars, rfl⟩
  | error hm =>
    rw [Program.run_of_error hx, Program.run_of_error hy]
    exact ⟨hm.output, hm.globalVars, rfl⟩

/-! ## Plain computations -/

/-- From states alike the computations end alike, and they count no steps. -/
structure Plain {α : Type} (S : Stmt → Stmt → Prop) (V : α → α → Prop) (x y : Eval α) : Prop where
  ends : ∀ {m m' : Machine}, m.Alike S m' → EndAlike S V (x m) (y m')
  steps : ∀ m, (x.after m).steps = m.steps
  steps' : ∀ m, (y.after m).steps = m.steps

namespace Plain

variable {α : Type} {S : Stmt → Stmt → Prop} {V : α → α → Prop}

theorem of_still {x y : Eval α} (hx : Eval.Still x) (hy : Eval.Still y)
    (h : ∀ {m m' : Machine}, m.Alike S m' → EndAlike S V (x m) (y m')) : Plain S V x y where
  ends := h
  steps := fun m => by rw [hx m]
  steps' := fun m => by rw [hy m]

theorem pure {a a' : α} (ha : V a a') : Plain S V (pure a) (pure a') :=
  of_still (Eval.still_pure a) (Eval.still_pure a') fun h => .ok h ha

theorem fail (fault : Fault) (span : Span) :
    Plain S V (Eval.fail fault span) (Eval.fail fault span) := by
  refine of_still (Eval.still_fail fault span) (Eval.still_fail fault span) ?_
  intro m m' h
  rw [Eval.fail, Eval.fail, h.calls]
  exact .error h

theorem read (span : Span) (name : String) :
    Plain S Eq (Eval.read span name) (Eval.read span name) := by
  refine of_still (Eval.still_read span name) (Eval.still_read span name) ?_
  intro m m' h
  rw [Eval.read, Eval.read, h.read? name]
  cases m'.read? name with
  | some v => exact .ok h rfl
  | none => exact (fail _ span).ends h

theorem operate (span : Span) (op : Token.Kind) (l r : Int) :
    Plain S Eq (Eval.operate span op l r) (Eval.operate span op l r) := by
  unfold Eval.operate
  cases op.apply l r with
  | ok v => exact pure rfl
  | error fault => exact fail fault span

theorem assign (name : String) (v : Int) :
    Plain S Eq (Eval.assign name v) (Eval.assign name v) := by
  have hsteps : ∀ m : Machine, (m.assign name v).steps = m.steps := by
    intro m
    unfold Machine.assign
    cases Machine.rebindIn m.stack name v <;> rfl
  exact ⟨fun h => .ok (h.assign name v) rfl, hsteps, hsteps⟩

theorem emit (v : Int) : Plain S Eq (Eval.emit v) (Eval.emit v) :=
  ⟨fun h => .ok (h.emit v) rfl, fun _ => rfl, fun _ => rfl⟩

/-- The functions found differ, but are alike. -/
theorem callee (span : Span) (name : String) (args : Nat) :
    Plain S (FunctionDef.Alike S) (Eval.callee span name args) (Eval.callee span name args) := by
  refine of_still (Eval.still_callee span name args) (Eval.still_callee span name args) ?_
  intro m m' h
  rw [Eval.callee, Eval.callee]
  rcases h.callee? name with ⟨hn, hn'⟩ | ⟨f, f', hf, hf', halike⟩
  · rw [hn, hn']
    exact (fail _ span).ends h
  · rw [hf, hf']
    show EndAlike S _ (if f.params.length = args then _ else _)
      (if f'.params.length = args then _ else _)
    rw [halike.params, halike.name]
    by_cases hargs : f'.params.length = args
    · rw [if_pos hargs, if_pos hargs]
      exact .ok h halike
    · rw [if_neg hargs, if_neg hargs]
      exact (fail _ span).ends h

end Plain

/-! ## Simulations -/

/-- A computation for all limits and all numbers of frames. -/
abbrev Family (α : Type) := Limits → Nat → Eval α

/-- A relation between a computation and a family that what is plain has, and that goes through
    `bind`. -/
structure Composable (S : Stmt → Stmt → Prop)
    (Rel : {α : Type} → (α → α → Prop) → Eval α → Family α → Prop) : Prop where
  plain : ∀ {α : Type} {V : α → α → Prop} {x y : Eval α}, Plain S V x y → Rel V x fun _ _ => y
  bind : ∀ {α β : Type} {V : α → α → Prop} {W : β → β → Prop} {x : Eval α} {Y : Family α}
    {f : α → Eval β} {F : α → Family β}, Rel V x Y → (∀ a a', V a a' → Rel W (f a) (F a')) →
    Rel W (x >>= f) fun l k => Y l k >>= fun a => F a l k

namespace Composable

variable {S : Stmt → Stmt → Prop}
  {Rel : {α : Type} → (α → α → Prop) → Eval α → Family α → Prop}

theorem pure (h : Composable S Rel) {α : Type} (a : α) :
    Rel Eq (Pure.pure a) fun _ _ => Pure.pure a := h.plain (.pure rfl)

/-- What follows equal values is only to be related for one value. -/
theorem bind_eq (h : Composable S Rel) {α β : Type} {W : β → β → Prop} {x : Eval α}
    {Y : Family α} {f : α → Eval β} {F : α → Family β} (hx : Rel Eq x Y)
    (hf : ∀ a, Rel W (f a) (F a)) : Rel W (x >>= f) fun l k => Y l k >>= fun a => F a l k :=
  h.bind hx fun a _ ha => ha ▸ hf a

/-- Two ways to go on, by the value of a condition. -/
theorem branch (h : Composable S Rel) {cond : Eval Int} {C : Family Int} {x y : Eval Completion}
    {X Y : Family Completion} (hcond : Rel Eq cond C) (hx : Rel Eq x X) (hy : Rel Eq y Y) :
    Rel Eq (cond >>= fun v => if v = 0 then x else y)
      fun l k => C l k >>= fun v => if v = 0 then X l k else Y l k := by
  refine h.bind_eq hcond fun v => ?_
  by_cases hv : v = 0
  · simp only [hv, if_true]
    exact hx
  · simp only [hv, if_false]
    exact hy

theorem andThen (h : Composable S Rel) {x y : Eval Completion} {X Y : Family Completion}
    (hx : Rel Eq x X) (hy : Rel Eq y Y) :
    Rel Eq (Eval.andThen x y) fun l k => Eval.andThen (X l k) (Y l k) := by
  unfold Eval.andThen
  refine h.bind_eq hx fun completion => ?_
  cases completion with
  | next => exact hy
  | returned v => exact h.pure (Completion.returned v)

end Composable

/-- A relation that is respected by whatever the evaluator builds computations with. -/
structure Simulation (S : Stmt → Stmt → Prop) (limits : Limits)
    (Rel : {α : Type} → Nat → (α → α → Prop) → Eval α → Family α → Prop) : Prop where
  plain : ∀ {α : Type} {d : Nat} {V : α → α → Prop} {x y : Eval α}, Plain S V x y →
    Rel d V x fun _ _ => y
  bind : ∀ {α β : Type} {d : Nat} {V : α → α → Prop} {W : β → β → Prop} {x : Eval α} {Y : Family α}
    {f : α → Eval β} {F : α → Family β}, Rel d V x Y → (∀ a a', V a a' → Rel d W (f a) (F a')) →
    Rel d W (x >>= f) fun l k => Y l k >>= fun a => F a l k
  within : ∀ {α : Type} {d : Nat} {V : α → α → Prop} {x : Eval α} {Y : Family α} (record : Record),
    Rel d V x Y → Rel d V (Eval.within record x) fun l k => Eval.within record (Y l k)
  tick : ∀ {d : Nat} (span : Span), Rel d Eq (Eval.tick limits span) fun l _ => Eval.tick l span
  loop : ∀ {d : Nat} {cond : Eval Int} {Cond : Family Int} {body : Eval Completion}
    {Body : Family Completion}, Rel d Eq cond Cond → Rel d Eq body Body →
    Rel d Eq (Eval.whileNonzero cond body (limits.clock + 1))
      fun l k => Eval.whileNonzero (Cond l k) (Body l k) (l.clock + 1)
  /-- One frame more on both sides. -/
  deeper : ∀ {α : Type} {d : Nat} {V : α → α → Prop} {x : Eval α} {Y : Family α},
    (Rel d V x fun l k => Y l (k + 1)) → Rel (d + 1) V x Y
  /-- No frame on either side. -/
  deepest : ∀ {α : Type} {V : α → α → Prop} {Y : Family α}, (∀ l, Y l 0 = Eval.tooDeep) →
    Rel 0 V Eval.tooDeep Y

/-- Statements of one form whose parts are related. -/
inductive Stmt.Layer (S : Stmt → Stmt → Prop) : Stmt → Stmt → Prop
  | block {span body body'} : List.Forall₂ S body body' →
      Layer S (.block span body) (.block span body')
  | expr (span : Span) (e : Expr) : Layer S (.expr span e) (.expr span e)
  | assign (span : Span) (name : String) (value : Expr) :
      Layer S (.assign span name value) (.assign span name value)
  | ifThen {span cond yes yes'} : S yes yes' →
      Layer S (.ifElse span cond yes none) (.ifElse span cond yes' none)
  | ifElse {span cond yes yes' no no'} : S yes yes' → S no no' →
      Layer S (.ifElse span cond yes (some no)) (.ifElse span cond yes' (some no'))
  | loop {span cond body body'} : S body body' →
      Layer S (.loop span cond body) (.loop span cond body')
  | ret (span : Span) (value : Option Expr) : Layer S (.ret span value) (.ret span value)
  | stray (span : Span) (label : String) : Layer S (.stray span label) (.stray span label)

theorem Stmt.Layer.refl {S : Stmt → Stmt → Prop} (hS : ∀ s, S s s) : ∀ s, Layer S s s
  | .block _ _ => .block (List.forall₂_same.mpr fun s _ => hS s)
  | .expr span e => .expr span e
  | .assign span name value => .assign span name value
  | .ifElse _ _ yes none => .ifThen (hS yes)
  | .ifElse _ _ yes (some no) => .ifElse (hS yes) (hS no)
  | .loop _ _ body => .loop (hS body)
  | .ret span value => .ret span value
  | .stray span label => .stray span label

/-- Evaluations with `d` frames are related to those of related statements. -/
structure EvaluatorSimulates (S : Stmt → Stmt → Prop) (limits : Limits)
    (Rel : {α : Type} → Nat → (α → α → Prop) → Eval α → Family α → Prop) (d : Nat) : Prop where
  eval : ∀ e : Expr, Rel d Eq (e.eval limits d) fun l k => e.eval l k
  exec : ∀ s s' : Stmt, S s s' → Rel d Eq (s.exec limits d) fun l k => s'.exec l k
  call : ∀ span name args, Rel d Eq (callFunction limits d span name args) fun l k =>
    callFunction l k span name args

namespace Simulation

variable {S : Stmt → Stmt → Prop} {limits : Limits} {d : Nat}
  {Rel : {α : Type} → Nat → (α → α → Prop) → Eval α → Family α → Prop}

theorem composable (h : Simulation S limits Rel) : Composable S fun V x Y => Rel d V x Y :=
  ⟨h.plain, h.bind⟩

theorem each (h : Simulation S limits Rel) (hd : EvaluatorSimulates S limits Rel d) :
    ∀ es, Rel d Eq (Eval.each (Expr.eval limits d) es) fun l k => Eval.each (Expr.eval l k) es := by
  intro es
  induction es with
  | nil => exact h.composable.pure []
  | cons e rest ih =>
    refine h.composable.bind_eq (hd.eval e) fun v => ?_
    exact h.composable.bind_eq ih fun vs => h.composable.pure (v :: vs)

theorem sequence (h : Simulation S limits Rel) (hd : EvaluatorSimulates S limits Rel d)
    {body body' : List Stmt} (hbody : List.Forall₂ S body body') :
    Rel d Eq (Eval.sequence (Stmt.exec limits d) body) fun l k =>
      Eval.sequence (Stmt.exec l k) body' := by
  induction hbody with
  | nil => exact h.composable.pure Completion.next
  | cons hs _ ih => exact h.composable.andThen (hd.exec _ _ hs) ih

theorem eval_succ (h : Simulation S limits Rel) (hd : EvaluatorSimulates S limits Rel d)
    (e : Expr) : Rel (d + 1) Eq (e.eval limits (d + 1)) fun l k => e.eval l k := by
  refine h.deeper ?_
  cases e with
  | lit span v => exact h.composable.pure v
  | var span name => exact h.plain (.read span name)
  | stray span label => exact h.plain (.fail _ span)
  | call span name args => exact hd.call span name args
  | binary span left op right =>
    refine h.composable.bind_eq (hd.eval left) fun v => ?_
    exact h.composable.bind_eq (hd.eval right) fun w => h.plain (.operate span op v w)

/-- Statements of one form are related if their parts are. -/
theorem exec_layer (h : Simulation S limits Rel) (hd : EvaluatorSimulates S limits Rel d)
    {s s' : Stmt} (hs : s.Layer S s') :
    Rel (d + 1) Eq (s.exec limits (d + 1)) fun l k => s'.exec l k := by
  refine h.deeper ?_
  cases hs with
  | block hbody =>
    refine h.composable.bind_eq (h.tick _) fun _ => ?_
    exact h.sequence hd hbody
  | expr span e =>
    refine h.composable.bind_eq (h.tick _) fun _ => ?_
    exact h.composable.bind_eq (hd.eval e) fun _ => h.composable.pure Completion.next
  | assign span name value =>
    refine h.composable.bind_eq (h.tick _) fun _ => ?_
    refine h.composable.bind_eq (hd.eval value) fun v => ?_
    exact h.composable.bind_eq (h.plain (.assign name v)) fun _ => h.composable.pure Completion.next
  | @ifThen span cond yes yes' hyes =>
    refine h.composable.bind_eq (h.tick _) fun _ => ?_
    exact h.composable.branch (hd.eval cond) (h.composable.pure Completion.next) (hd.exec yes yes' hyes)
  | @ifElse span cond yes yes' no no' hyes hno =>
    refine h.composable.bind_eq (h.tick _) fun _ => ?_
    exact h.composable.branch (hd.eval cond) (hd.exec no no' hno) (hd.exec yes yes' hyes)
  | @loop span cond body body' hbody =>
    refine h.composable.bind_eq (h.tick _) fun _ => ?_
    exact h.loop (hd.eval cond) (hd.exec body body' hbody)
  | ret span value =>
    refine h.composable.bind_eq (h.tick _) fun _ => ?_
    cases value with
    | none => exact h.composable.pure (Completion.returned 0)
    | some e => exact h.composable.bind_eq (hd.eval e) fun v => h.composable.pure (Completion.returned v)
  | stray span label =>
    refine h.composable.bind_eq (h.tick _) fun _ => ?_
    exact h.plain (.fail _ span)

theorem call_succ (h : Simulation S limits Rel) (hd : EvaluatorSimulates S limits Rel d)
    (span : Span) (name : String) (args : List Expr) :
    Rel (d + 1) Eq (callFunction limits (d + 1) span name args) fun l k =>
      callFunction l k span name args := by
  refine h.deeper ?_
  unfold callFunction
  by_cases hname : name = printName
  · simp only [if_pos hname]
    rcases args with _ | ⟨e, _ | ⟨e', rest⟩⟩
    · exact h.plain (.fail _ span)
    · refine h.composable.bind_eq (hd.eval e) fun v => ?_
      exact h.composable.bind_eq (h.plain (.emit v)) fun _ => h.composable.pure 0
    · exact h.plain (.fail _ span)
  · simp only [if_neg hname]
    refine h.bind (h.plain (.callee span name args.length)) fun f f' hf => ?_
    refine h.composable.bind_eq (h.each hd args) fun vs => ?_
    rw [hf.name, hf.params]
    refine h.composable.bind_eq (h.within _ (hd.exec f.body f'.body hf.body)) fun completion => ?_
    cases completion with
    | next => exact h.composable.pure 0
    | returned v => exact h.composable.pure v

/-- By induction on the frames: if statements related by `S` have one form and related parts, or are
    related because all that has fewer frames is, then everything is related. -/
theorem evaluator (h : Simulation S limits Rel)
    (hS : ∀ d, (∀ d' ≤ d, EvaluatorSimulates S limits Rel d') → ∀ s s', S s s' →
      s.Layer S s' ∨ Rel (d + 1) Eq (s.exec limits (d + 1)) fun l k => s'.exec l k) :
    ∀ d, EvaluatorSimulates S limits Rel d := by
  intro d
  induction d using Nat.strongRecOn with
  | ind d ih =>
    cases d with
    | zero =>
      exact {
        eval := fun e => by rw [Expr.eval]; exact h.deepest fun l => by rw [Expr.eval]
        exec := fun s s' _ => by rw [Stmt.exec]; exact h.deepest fun l => by rw [Stmt.exec]
        call := fun span name args => by
          rw [callFunction]; exact h.deepest fun l => by rw [callFunction] }
    | succ d =>
      have hd := ih d (Nat.lt_succ_self d)
      refine { eval := h.eval_succ hd, exec := ?_, call := h.call_succ hd }
      intro s s' hs
      rcases hS d (fun d' hd' => ih d' (Nat.lt_succ_of_le hd')) s s' hs with hlayer | hrel
      · exact h.exec_layer hd hlayer
      · exact hrel

/-- What two programs alike do is related, from their states alike on. -/
theorem work (h : Simulation S limits Rel) {p p' : Program} (hp : p.Alike S p')
    (hd : EvaluatorSimulates S limits Rel limits.frames) :
    Rel limits.frames Eq (p.work limits) fun l k => Eval.within mainRecord (p'.body.exec l k) :=
  h.within mainRecord (hd.exec p.body p'.body hp.body)

end Simulation

end MiniLang
