/-
  Which functions a run starts with shows in it, not how they came to be known.

  Before anything is executed the functions of a program are made known, one after the other, and
  of two with one name the later one counts.  So the table in which a run starts is one table, up to
  its order, for all programs in which the names have the same last definitions.

  1. **Last definitions** — they are kept if definitions of two names change places, and if one is
     dropped that another one of its name follows (`Rearranged.last`).
  2. **Tables by look-up** — a table names nothing twice, whatever is set in it; two such tables with
     the same entries by name are the same up to order.
  3. **States that agree** — `m.Agrees m'`: all is the same but for the order of the globals.
     Whatever is done to both of them leads to states that agree.
  4. **Computations** — `Eval.Agrees x y`: from states that agree, `x` and `y` end in the same way,
     and in states that agree.  The evaluator respects this relation (`Eval.agrees_parametric`).
  5. **Runs** — `Outcome.Agrees`: the same was printed and counted, and the globals are the same
     mapping.  Runs with the same last definitions agree (`run_agrees`).
  6. **The place of a body** — no run tells it but one without any time, which is stopped there.
-/
import Mathlib.Data.List.Nodup
import MiniLang.Proofs.Running.Calls
import MiniLang.Proofs.Running.Overwriting

namespace MiniLang

/-! ## Last definitions -/

/-- The second list of definitions is what becomes of the first one if neighbours with two names
    change places, and if definitions that another one of their name follows are dropped. -/
inductive Rearranged : List FunctionDef → List FunctionDef → Prop
  | swap {fs f g gs} : f.name ≠ g.name → Rearranged (fs ++ f :: g :: gs) (fs ++ g :: f :: gs)
  | drop {fs f gs} : (∃ g ∈ gs, g.name = f.name) → Rearranged (fs ++ f :: gs) (fs ++ gs)
  | trans {fs gs hs} : Rearranged fs gs → Rearranged gs hs → Rearranged fs hs

/-- The last definitions stay what they are. -/
theorem Rearranged.last {fs gs : List FunctionDef} (h : Rearranged fs gs) (name : String) :
    fs.reverse.find? (·.name == name) = gs.reverse.find? (·.name == name) := by
  induction h with
  | @swap fs f g gs hne =>
    simp only [List.reverse_append, List.reverse_cons, List.find?_append]
    -- at most one of the two has the name
    by_cases hname : f.name = name
    · have hother : (g.name == name) = false := by
        rw [← hname]
        exact beq_false_of_ne hne.symm
      simp [hother]
    · have hother : (f.name == name) = false := beq_false_of_ne hname
      simp [hother]
  | @drop fs f gs hlater =>
    obtain ⟨g, hg, hname⟩ := hlater
    simp only [List.reverse_append, List.reverse_cons, List.find?_append]
    by_cases hf : f.name = name
    · have hfound : (gs.reverse.find? (·.name == name)).isSome = true := by
        rw [List.find?_isSome]
        exact ⟨g, List.mem_reverse.mpr hg, beq_iff_eq.mpr (hname.trans hf)⟩
      obtain ⟨last, hlast⟩ := Option.isSome_iff_exists.mp hfound
      simp [hlast]
    · have hother : (f.name == name) = false := beq_false_of_ne hf
      simp [hother]
  | trans _ _ ih ih' => exact ih.trans ih'

/-! ## Tables by look-up -/

namespace Table

variable {α : Type} {t t' : Table α} {name : String}

/-- A name that is not there is added at the end. -/
theorem names_set_of_new : ∀ {t : Table α} (a : α), t.has name = false →
    (t.set name a).names = t.names ++ [name] := by
  intro t a h
  induction t with
  | nil => rfl
  | cons entry rest ih =>
    obtain ⟨key, b⟩ := entry
    by_cases hkey : key = name
    · simp [has, get?, hkey] at h
    · have hrest : has rest name = false := by simpa [has, get?, hkey] using h
      have hnames : (set rest name a).map (·.1) = rest.map (·.1) ++ [name] := ih hrest
      simp [set, names, hkey, hnames]

theorem nodup_set (h : t.names.Nodup) (name : String) (a : α) : (t.set name a).names.Nodup := by
  by_cases hhas : t.has name = true
  · rw [names_set a hhas]
    exact h
  · have hnew : name ∉ t.names := mt (has_iff_mem t name).mpr hhas
    rw [names_set_of_new a (Bool.eq_false_iff.mpr hhas), ← List.concat_eq_append]
    exact h.concat hnew

theorem get?_of_notMem (h : name ∉ t.names) : t.get? name = none := by
  have hhas : ¬ t.has name = true := mt (has_iff_mem t name).mp h
  exact Option.not_isSome_iff_eq_none.mp hhas

/-- The entries of a table are what its names are looked up as. -/
theorem mem_iff_get? {t : Table α} (h : t.names.Nodup) {a : α} :
    (name, a) ∈ t ↔ t.get? name = some a := by
  induction t with
  | nil => simp [get?]
  | cons entry rest ih =>
    obtain ⟨key, b⟩ := entry
    obtain ⟨hkey, hrest⟩ := List.nodup_cons.mp h
    rw [List.mem_cons, ih hrest, get?]
    by_cases hname : key = name
    · subst hname
      rw [get?_of_notMem hkey]
      simp [eq_comm]
    · simp [hname, Ne.symm hname]

/-- Two tables with the same entries by name are the same but for their order. -/
theorem perm_of_get? (h : t.names.Nodup) (h' : t'.names.Nodup)
    (hget : ∀ name, t.get? name = t'.get? name) : t.Perm t' := by
  refine (List.perm_ext_iff_of_nodup (.of_map _ h) (.of_map _ h')).mpr ?_
  rintro ⟨name, a⟩
  rw [mem_iff_get? h, mem_iff_get? h', hget]

end Table

/-- Only the variables among the globals have values. -/
def Symbol.value? : Symbol → Option Int
  | .variable v => some v
  | .function _ => none

namespace Machine

/-- The names of the global variables stand among those of the globals, in their order. -/
theorem names_globalVars (m : Machine) : m.globalVars.names.Sublist m.globals.names := by
  obtain ⟨globals, stack, printed, steps⟩ := m
  induction globals with
  | nil => exact .slnil
  | cons entry rest ih =>
    obtain ⟨name, v | f⟩ := entry
    · exact ih.cons_cons name
    · exact ih.cons name

theorem get?_globalVars {m : Machine} (h : m.globals.names.Nodup) (name : String) :
    m.globalVars.get? name = (m.globals.get? name).bind Symbol.value? := by
  obtain ⟨globals, stack, printed, steps⟩ := m
  induction globals with
  | nil => rfl
  | cons entry rest ih =>
    obtain ⟨hkey, hrest⟩ := List.nodup_cons.mp h
    have hbehind := ih hrest
    obtain ⟨key, v | f⟩ := entry
    · show Table.get? ((key, v) :: _) name = _
      rw [Table.get?, Table.get?]
      by_cases hname : key = name
      · rw [if_pos hname, if_pos hname]
        rfl
      · rw [if_neg hname, if_neg hname]
        exact hbehind
    · rw [Table.get?]
      by_cases hname : key = name
      · subst hname
        rw [Table.get?_of_notMem hkey] at hbehind
        rw [if_pos rfl]
        exact hbehind
      · rw [if_neg hname]
        exact hbehind

/-- No evaluation makes a name come twice among the globals. -/
theorem lasting_nodup : Lasting fun m m' => m.globals.names.Nodup → m'.globals.names.Nodup where
  refl := fun _ h => h
  trans := fun h₁ h₂ h => h₂ (h₁ h)
  step := fun _ h => h
  assign := by
    intro m name v h
    unfold assign
    cases rebindIn m.stack name v with
    | some stack => exact h
    | none => exact Table.nodup_set h name _
  emit := fun _ _ h => h
  call := fun h => h

end Machine

theorem Program.nodup_start (p : Program) : p.start.globals.names.Nodup := by
  have hdefine : ∀ (fs : List FunctionDef) (t : Table Symbol), t.names.Nodup →
      (fs.foldl (fun t f => t.set f.name (.function f)) t).names.Nodup := by
    intro fs
    induction fs with
    | nil => exact fun _ h => h
    | cons f rest ih =>
      intro t h
      rw [List.foldl_cons]
      exact ih _ (Table.nodup_set h f.name _)
  exact hdefine p.functions [] List.nodup_nil

theorem nodup_run (limits : Limits) (p : Program) :
    (p.run limits).machine.globals.names.Nodup := by
  have hkeeps := (evaluator_keeps Machine.lasting_nodup limits limits.frames).exec p.body
  rw [Program.run_machine]
  exact (Eval.Keeps.within Machine.lasting_nodup mainRecord hkeeps) p.start p.nodup_start

/-! ## States that agree -/

/-- The two states are the same but for the order of their globals. -/
structure Machine.Agrees (m m' : Machine) : Prop where
  entry : ∀ name, m.globals.get? name = m'.globals.get? name
  stack : m.stack = m'.stack
  printed : m.printed = m'.printed
  steps : m.steps = m'.steps

namespace Machine.Agrees

variable {m m' : Machine}

theorem read? (h : m.Agrees m') (name : String) : m.read? name = m'.read? name := by
  rw [Machine.read?, Machine.read?, h.stack, h.entry]

theorem callee? (h : m.Agrees m') (name : String) : m.callee? name = m'.callee? name := by
  rw [Machine.callee?, Machine.callee?, h.entry]

theorem calls (h : m.Agrees m') : m.calls = m'.calls := by
  rw [Machine.calls, Machine.calls, h.stack]

theorem step (h : m.Agrees m') :
    Agrees { m with steps := m.steps + 1 } { m' with steps := m'.steps + 1 } where
  entry := h.entry
  stack := h.stack
  printed := h.printed
  steps := congrArg (· + 1) h.steps

theorem emit (h : m.Agrees m') (v : Int) :
    Agrees { m with printed := m.printed.push v } { m' with printed := m'.printed.push v } where
  entry := h.entry
  stack := h.stack
  printed := congrArg (·.push v) h.printed
  steps := h.steps

theorem assign (h : m.Agrees m') (name : String) (v : Int) :
    (m.assign name v).Agrees (m'.assign name v) := by
  rw [Machine.assign, Machine.assign, ← h.stack]
  cases rebindIn m.stack name v with
  | some stack => exact { entry := h.entry, stack := rfl, printed := h.printed, steps := h.steps }
  | none =>
    refine { entry := ?_, stack := rfl, printed := h.printed, steps := h.steps }
    intro other
    rw [Table.get?_set, Table.get?_set, h.entry]

/-- A call begins or is over in both. -/
theorem restack (h : m.Agrees m') {stack stack' : List Record} (hstack : stack = stack') :
    Agrees { m with stack } { m' with stack := stack' } where
  entry := h.entry
  stack := hstack
  printed := h.printed
  steps := h.steps

end Machine.Agrees

/-! ## Computations -/

namespace Eval

variable {α β : Type}

/-- From states that agree both computations have one value, or stop for one reason, and again the
    states agree. -/
def Agrees (x y : Eval α) : Prop := ∀ m m', m.Agrees m' →
  (∃ a m₁ m₁', x m = .ok a m₁ ∧ y m' = .ok a m₁' ∧ m₁.Agrees m₁') ∨
  ∃ halt m₁ m₁', x m = .error halt m₁ ∧ y m' = .error halt m₁' ∧ m₁.Agrees m₁'

namespace Agrees

theorem pure (a : α) : Agrees (pure a) (pure a) := fun m m' h => .inl ⟨a, m, m', rfl, rfl, h⟩

theorem throw (halt : Halt) : Agrees (throw halt : Eval α) (throw halt) := fun m m' h =>
  .inr ⟨halt, m, m', rfl, rfl, h⟩

theorem fail (fault : Fault) (span : Span) :
    Agrees (Eval.fail fault span : Eval α) (Eval.fail fault span) := by
  intro m m' h
  refine .inr ⟨.failed fault span m.calls, m, m', rfl, ?_, h⟩
  rw [h.calls]
  rfl

theorem read (span : Span) (name : String) : Agrees (Eval.read span name) (Eval.read span name) := by
  intro m m' h
  have hfail := fail (α := Int) (.undefinedVariable name) span m m' h
  rw [Eval.read, Eval.read, ← h.read?]
  cases m.read? name with
  | some v => exact .inl ⟨v, m, m', rfl, rfl, h⟩
  | none => exact hfail

theorem callee (span : Span) (name : String) (args : Nat) :
    Agrees (Eval.callee span name args) (Eval.callee span name args) := by
  intro m m' h
  rw [Eval.callee, Eval.callee, ← h.callee?]
  cases m.callee? name with
  | none => exact fail (.unknownFunction name) span m m' h
  | some f =>
    show (∃ a m₁ m₁', (if f.params.length = args then _ else _) = _ ∧
      (if f.params.length = args then _ else _) = _ ∧ _) ∨ _
    by_cases hargs : f.params.length = args
    · simp only [hargs, if_true]
      exact .inl ⟨f, m, m', rfl, rfl, h⟩
    · simp only [hargs, if_false]
      exact fail (.arityMismatch f.name f.params.length args) span m m' h

theorem bind {x y : Eval α} {f g : α → Eval β} (hx : Agrees x y) (hf : ∀ a, Agrees (f a) (g a)) :
    Agrees (x >>= f) (y >>= g) := by
  intro m m' h
  rcases hx m m' h with ⟨a, m₁, m₁', hx, hy, hagree⟩ | ⟨halt, m₁, m₁', hx, hy, hagree⟩
  · rw [bind_of_ok hx, bind_of_ok hy]
    exact hf a m₁ m₁' hagree
  · rw [bind_of_error hx, bind_of_error hy]
    exact .inr ⟨halt, m₁, m₁', rfl, rfl, hagree⟩

theorem within {x y : Eval α} (record : Record) (hx : Agrees x y) :
    Agrees (Eval.within record x) (Eval.within record y) := by
  intro m m' h
  have hinside := h.restack (congrArg (record :: ·) h.stack)
  rcases hx _ _ hinside with ⟨a, m₁, m₁', hx, hy, hagree⟩ | ⟨halt, m₁, m₁', hx, hy, hagree⟩
  · refine .inl ⟨a, _, _, within_of_ok hx, within_of_ok hy, ?_⟩
    exact hagree.restack (congrArg List.tail hagree.stack)
  · refine .inr ⟨halt, _, _, within_of_error hx, within_of_error hy, ?_⟩
    exact hagree.restack (congrArg List.tail hagree.stack)

/-- A step goes through in both, or is counted in both and then stops them. -/
theorem tick (limits : Limits) (span : Span) :
    Agrees (Eval.tick limits span) (Eval.tick limits span) := by
  intro m m' h
  have hstep := h.step
  rw [← h.steps] at hstep
  simp only [Eval.tick, ← h.steps]
  by_cases hclock : m.steps + 1 ≤ limits.clock
  · simp only [hclock, if_true]
    exact .inl ⟨(), _, _, rfl, rfl, hstep⟩
  · by_cases hbudget : limits.budget.isSome = true
    · simp only [hclock, hbudget, if_true, if_false]
      exact fail .stepLimit span _ _ hstep
    · simp only [hclock, hbudget, if_false]
      exact .inr ⟨.unfinished, _, _, rfl, rfl, hstep⟩

end Agrees

/-- The order of the globals shows in no evaluation. -/
theorem agrees_parametric (limits : Limits) : Parametric limits limits Agrees where
  pure := .pure
  throw := .throw
  fail := .fail
  read := .read
  callee := .callee
  bind := .bind
  within := .within
  tick := .tick limits
  assign := fun name v _ _ h => .inl ⟨(), _, _, rfl, rfl, h.assign name v⟩
  emit := fun v _ _ h => .inl ⟨(), _, _, rfl, rfl, h.emit v⟩
  clock := rfl

theorem exec_agrees (limits : Limits) (d : Nat) (s : Stmt) :
    Agrees (s.exec limits d) (s.exec limits d) := by
  have hdeep : EvaluatorRelated limits limits Agrees 0 0 := {
    eval := fun e => by rw [Expr.eval]; exact .throw .tooDeep
    exec := fun s => by rw [Stmt.exec]; exact .throw .tooDeep
    call := fun span name args => by rw [callFunction]; exact .throw .tooDeep }
  exact ((agrees_parametric limits).evaluator hdeep d).exec s

end Eval

/-! ## Runs -/

/-- The two runs print and count the same, and leave the same global variables, each name once and in
    whatever order. -/
structure Outcome.Agrees (o o' : Outcome) : Prop where
  output : o.output = o'.output
  steps : o.steps = o'.steps
  globals : ∀ name, o.globals.get? name = o'.globals.get? name
  entries : o.globals.Perm o'.globals

section

variable {p q : Program} {limits : Limits}

theorem Program.start_agrees (h : ∀ f, p.definition? f = q.definition? f) :
    p.start.Agrees q.start where
  entry := by
    intro name
    rw [p.get?_start, q.get?_start, h]
  stack := rfl
  printed := rfl
  steps := rfl

/-- What is told of two states that agree, in which no global comes twice. -/
theorem Outcome.Agrees.of_machine {o o' : Outcome} (h : o.machine.Agrees o'.machine)
    (ho : o.machine.globals.names.Nodup) (ho' : o'.machine.globals.names.Nodup) : o.Agrees o' := by
  have hget : ∀ name, o.globals.get? name = o'.globals.get? name := by
    intro name
    rw [Outcome.globals, Outcome.globals, Machine.get?_globalVars ho, Machine.get?_globalVars ho',
      h.entry]
  refine { output := ?_, steps := h.steps, globals := hget, entries := ?_ }
  · rw [Outcome.output, Outcome.output, Machine.output, Machine.output, h.printed]
  · exact Table.perm_of_get? (ho.sublist (Machine.names_globalVars _))
      (ho'.sublist (Machine.names_globalVars _)) hget

/-- Programs that do the same, and in which every name has the same last definition, run alike. -/
theorem run_agrees (h : ∀ f, p.definition? f = q.definition? f) (hbody : p.body = q.body) :
    (p.run limits).halt = (q.run limits).halt ∧ (p.run limits).Agrees (q.run limits) := by
  have hwork : Eval.Agrees (p.work limits) (q.work limits) := by
    rw [Program.work, Program.work, hbody]
    exact .within mainRecord (Eval.exec_agrees limits limits.frames q.body)
  have hends : (p.run limits).halt = (q.run limits).halt ∧
      (p.run limits).machine.Agrees (q.run limits).machine := by
    rcases hwork p.start q.start (Program.start_agrees h) with
      ⟨completion, m, m', hm, hm', hagree⟩ | ⟨halt, m, m', hm, hm', hagree⟩
    · rw [Program.run_of_ok hm, Program.run_of_ok hm']
      exact ⟨rfl, hagree⟩
    · rw [Program.run_of_error hm, Program.run_of_error hm']
      exact ⟨rfl, hagree⟩
  exact ⟨hends.1, .of_machine hends.2 (nodup_run limits p) (nodup_run limits q)⟩

end

/-! ## The place of a body -/

/-- Two places of a step are told apart only where a budget is used up. -/
theorem tick_moved (limits : Limits) (span span' : Span) (m : Machine) :
    Eval.tick limits span m = Eval.tick limits span' m ∨
      limits.clock ≤ m.steps ∧ ∀ span, Eval.tick limits span m =
        .error (.failed .stepLimit span m.calls) { m with steps := m.steps + 1 } := by
  by_cases hclock : m.steps + 1 ≤ limits.clock
  · left
    simp only [Eval.tick, hclock, if_true]
  · by_cases hbudget : limits.budget.isSome = true
    · refine .inr ⟨by omega, fun span => ?_⟩
      simp only [Eval.tick, hclock, hbudget, if_true, if_false]
      rfl
    · left
      simp only [Eval.tick, hclock, hbudget, if_false]
      rfl

theorem exec_block_moved (limits : Limits) (d : Nat) (span span' : Span) (body : List Stmt)
    (m : Machine) :
    (Stmt.block span body).exec limits d m = (Stmt.block span' body).exec limits d m ∨
      limits.clock ≤ m.steps ∧ ∀ span, (Stmt.block span body).exec limits d m =
        .error (.failed .stepLimit span m.calls) { m with steps := m.steps + 1 } := by
  cases d with
  | zero =>
    left
    rw [Stmt.exec, Stmt.exec]
  | succ d =>
    rcases tick_moved limits span span' m with hsame | ⟨hclock, hstopped⟩
    · left
      rw [Stmt.exec, Stmt.exec]
      show EStateM.bind (Eval.tick limits span) _ m = EStateM.bind (Eval.tick limits span') _ m
      rw [EStateM.bind, EStateM.bind, hsame]
    · refine .inr ⟨hclock, fun span => ?_⟩
      rw [Stmt.exec]
      exact Eval.bind_of_error (hstopped span)

/-- A run is what is done from the state in which it starts. -/
theorem run_eq_of_work {p q : Program} {limits : Limits}
    (h : p.work limits p.start = q.work limits q.start) : p.run limits = q.run limits := by
  cases hq : q.work limits q.start with
  | ok completion m => rw [Program.run_of_ok hq, Program.run_of_ok (h.trans hq)]
  | error halt m => rw [Program.run_of_error hq, Program.run_of_error (h.trans hq)]

/-- The program with other statements, which stand at a place of their own. -/
def Program.doing (p : Program) (span : Span) (body : List Stmt) : Program :=
  { p with body := .block span body }

/-- A run that has some time does not tell where its body as a whole stands; one that has none is
    stopped there. -/
theorem run_moved (limits : Limits) (p : Program) (span span' : Span) (body : List Stmt) :
    (p.doing span body).run limits = (p.doing span' body).run limits ∨
      limits.clock = 0 ∧ ∀ span, (p.doing span body).run limits =
        ⟨{ p.start with steps := 1 }, some (.failed .stepLimit span ["<main>"])⟩ := by
  rcases exec_block_moved limits limits.frames span span' body
    { p.start with stack := [mainRecord] } with hsame | ⟨hclock, hstopped⟩
  · left
    refine run_eq_of_work ?_
    show Eval.within mainRecord ((Stmt.block span body).exec limits limits.frames) p.start =
      Eval.within mainRecord ((Stmt.block span' body).exec limits limits.frames) p.start
    unfold Eval.within
    rw [show p.start.stack = [] from rfl, hsame]
  · refine .inr ⟨Nat.le_zero.mp hclock, fun span => ?_⟩
    exact Program.run_of_error (Eval.within_of_error (hstopped span))

/-- Programs with the same statements, and in which every name has the same last definition, run
    alike, and fail alike unless they have no time to begin. -/
theorem run_agrees_of_block {p q : Program} {limits : Limits} {span span' : Span} {body : List Stmt}
    (h : ∀ f, p.definition? f = q.definition? f) (hp : p.body = .block span body)
    (hq : q.body = .block span' body) :
    (p.run limits).Agrees (q.run limits) ∧
      ((p.run limits).halt = (q.run limits).halt ∨ limits.clock = 0 ∧
        (p.run limits).halt = some (.failed .stepLimit span ["<main>"]) ∧
        (q.run limits).halt = some (.failed .stepLimit span' ["<main>"])) := by
  have hp : p = p.doing span body := by rw [Program.doing, ← hp]
  have hq : q = q.doing span' body := by rw [Program.doing, ← hq]
  have hsame : (p.run limits).halt = ((q.doing span body).run limits).halt ∧
      (p.run limits).Agrees ((q.doing span body).run limits) := by
    rw [hp]
    exact run_agrees h rfl
  rcases run_moved limits q span span' body with hmoved | ⟨hclock, hstopped⟩
  · rw [hmoved, ← hq] at hsame
    exact ⟨hsame.2, .inl hsame.1⟩
  · have hq' := hstopped span'
    rw [← hq] at hq'
    rw [hstopped span] at hsame
    obtain ⟨hhalt, hagree⟩ := hsame
    rw [hq']
    refine ⟨?_, .inr ⟨hclock, hhalt, rfl⟩⟩
    exact { output := hagree.output, steps := hagree.steps, globals := hagree.globals,
            entries := hagree.entries }

end MiniLang
