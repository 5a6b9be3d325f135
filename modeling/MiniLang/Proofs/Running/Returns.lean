/-
  A return cuts the rest of its function, and nothing else.

  1. **Returning statements** — `Stmt.Returning`: a return, a block with a returning statement in it,
     and an `if` with two returning branches.  They never fall through (`neverNext_of_returning`).
  2. **Cuts** — `Stmt.Cut s s'`: `s'` is `s` without some of the statements that follow a returning
     one in the same block, anywhere inside.
  3. **In step** — `InStep V x y`: from states alike after as many steps, `x` and `y` end alike after
     as many steps.  Being in step is a simulation, and a cut keeps in step: where the cut is made,
     neither side goes on.
  4. **Where a return leads** — a statement that is executed `Under` another one, in the same call,
     hands what it returns up to that one, and the state with it.
-/
import MiniLang.Proofs.Running.History
import MiniLang.Proofs.Running.Reached
import MiniLang.Proofs.Running.Simulation

namespace MiniLang

/-! ## Returning statements -/

/-- Statements that do not end without a return. -/
inductive Stmt.Returning : Stmt → Prop
  | ret (span : Span) (value : Option Expr) : Returning (.ret span value)
  | block {span body s} : s ∈ body → Returning s → Returning (.block span body)
  | ifElse {span cond yes no} : Returning yes → Returning no →
      Returning (.ifElse span cond yes (some no))

namespace Eval

/-- The computation does not fall through. -/
def NeverNext (x : Eval Completion) : Prop := ∀ m m', x m ≠ .ok .next m'

theorem neverNext_throw (halt : Halt) : NeverNext (throw halt) := fun _ _ => nofun

theorem neverNext_returned (v : Int) : NeverNext (return .returned v) := fun _ _ => nofun

theorem neverNext_bind {α : Type} {x : Eval α} {f : α → Eval Completion}
    (hf : ∀ a, NeverNext (f a)) : NeverNext (x >>= f) := by
  intro m m'
  cases h : x m with
  | error halt m₁ => rw [bind_of_error h]; exact nofun
  | ok a m₁ => rw [bind_of_ok h]; exact hf a m₁ m'

/-- One such statement is enough for a row. -/
theorem neverNext_sequence {exec : Stmt → Eval Completion} {s : Stmt} (hs : NeverNext (exec s)) :
    ∀ {body : List Stmt}, s ∈ body → NeverNext (sequence exec body) := by
  intro body
  induction body with
  | nil => exact nofun
  | cons s' rest ih =>
    intro hmem m m' h
    rw [sequence_cons] at h
    cases hs' : exec s' m with
    | error halt m₁ => rw [andThen, bind_of_error hs'] at h; cases h
    | ok completion m₁ =>
      cases completion with
      | returned v => rw [andThen_of_returned hs'] at h; cases h
      | next =>
        rw [andThen_of_next hs'] at h
        rcases List.mem_cons.mp hmem with rfl | hrest
        · exact hs m m₁ hs'
        · exact ih hrest m₁ m' h

end Eval

open Eval (NeverNext neverNext_throw neverNext_returned neverNext_bind neverNext_sequence)

/-- By induction on how the statement comes to be returning. -/
theorem neverNext_of_returning (limits : Limits) {s : Stmt} (h : s.Returning) :
    ∀ d, NeverNext (s.exec limits d) := by
  intro d
  induction h generalizing d with
  | ret span value =>
    cases d with
    | zero => exact neverNext_throw .tooDeep
    | succ d =>
      unfold Stmt.exec
      refine neverNext_bind fun _ => ?_
      cases value with
      | none => exact neverNext_returned 0
      | some e => exact neverNext_bind neverNext_returned
  | block hmem _ ih =>
    cases d with
    | zero => exact neverNext_throw .tooDeep
    | succ d =>
      unfold Stmt.exec
      exact neverNext_bind fun _ => neverNext_sequence (ih d) hmem
  | ifElse _ _ ihyes ihno =>
    cases d with
    | zero => exact neverNext_throw .tooDeep
    | succ d =>
      unfold Stmt.exec
      refine neverNext_bind fun _ => neverNext_bind fun v => ?_
      by_cases hv : v = 0
      · simp only [hv, if_true]
        exact ihno d
      · simp only [hv, if_false]
        exact ihyes d

/-! ## Cuts -/

/-- Without some of the statements that follow a returning one in the same block. -/
inductive Stmt.Cut : Stmt → Stmt → Prop
  | same (s : Stmt) : Cut s s
  | block {span body body'} : List.Forall₂ Cut body body' →
      Cut (.block span body) (.block span body')
  /-- Behind the returning statement `s` some of the statements are left out. -/
  | behind (before before' : List Stmt) {span s s' rest rest' kept} : List.Forall₂ Cut before before' →
      Cut s s' → s.Returning → List.Forall₂ Cut rest rest' → kept.Sublist rest' →
      Cut (.block span (before ++ s :: rest)) (.block span (before' ++ s' :: kept))
  | ifThen {span cond yes yes'} : Cut yes yes' →
      Cut (.ifElse span cond yes none) (.ifElse span cond yes' none)
  | ifElse {span cond yes yes' no no'} : Cut yes yes' → Cut no no' →
      Cut (.ifElse span cond yes (some no)) (.ifElse span cond yes' (some no'))
  | loop {span cond body body'} : Cut body body' →
      Cut (.loop span cond body) (.loop span cond body')

/-! ## In step -/

/-- From states alike after as many steps, the computations end alike after as many steps. -/
def InStep {α : Type} (V : α → α → Prop) (x y : Eval α) : Prop :=
  ∀ m m', m.Alike Stmt.Cut m' → m.steps = m'.steps →
    EndAlike Stmt.Cut V (x m) (y m') ∧ (x.after m).steps = (y.after m').steps

namespace InStep

variable {α β : Type} {V : α → α → Prop} {W : β → β → Prop}

theorem plain {x y : Eval α} (h : Plain Stmt.Cut V x y) : InStep V x y := by
  intro m m' hm hsteps
  refine ⟨h.ends hm, ?_⟩
  rw [h.steps, h.steps', hsteps]

theorem pure (a : α) : InStep Eq (pure a) (pure a) := plain (.pure rfl)

theorem bind {x y : Eval α} {f g : α → Eval β} (hx : InStep V x y)
    (hf : ∀ a a', V a a' → InStep W (f a) (g a')) : InStep W (x >>= f) (y >>= g) := by
  intro m m' hm hsteps
  obtain ⟨hends, hafter⟩ := hx m m' hm hsteps
  generalize hxm : x m = r at hends
  generalize hym : y m' = r' at hends
  cases hends with
  | error hhalt =>
    rw [Eval.after_bind_of_error hxm, Eval.after_bind_of_error hym, Eval.bind_of_error hxm,
      Eval.bind_of_error hym]
    exact ⟨.error hhalt, hafter⟩
  | @ok a a' m₁ m₁' hm₁ ha =>
    rw [Eval.after_of_ok hxm, Eval.after_of_ok hym] at hafter
    rw [Eval.after_bind_of_ok hxm, Eval.after_bind_of_ok hym, Eval.bind_of_ok hxm,
      Eval.bind_of_ok hym]
    exact hf a a' ha m₁ m₁' hm₁ hafter

theorem within {x y : Eval α} (record : Record) (h : InStep V x y) :
    InStep V (Eval.within record x) (Eval.within record y) := by
  intro m m' hm hsteps
  obtain ⟨hends, hafter⟩ := h _ _ (hm.enter record) hsteps
  rw [Eval.after_within, Eval.after_within]
  exact ⟨hends.within, hafter⟩

/-- The step is counted on both sides, and exceeds the clock on both or on neither. -/
theorem tick (limits : Limits) (span : Span) :
    InStep Eq (Eval.tick limits span) (Eval.tick limits span) := by
  intro m m' hm hsteps
  rw [Eval.after_tick, Eval.after_tick, hsteps]
  refine ⟨?_, rfl⟩
  have hm₁ : Machine.Alike Stmt.Cut { m with steps := m'.steps + 1 }
      { m' with steps := m'.steps + 1 } := hm.steps _ _
  have hcalls : Machine.calls { m with steps := m'.steps + 1 } =
      Machine.calls { m' with steps := m'.steps + 1 } := hm₁.calls
  simp only [Eval.tick, hsteps, Eval.fail, hcalls]
  by_cases hclock : m'.steps + 1 ≤ limits.clock
  · simp only [hclock, if_true]
    exact .ok hm₁ rfl
  · simp only [hclock, if_false]
    by_cases hbudget : limits.budget.isSome = true
    · simp only [hbudget, if_true]
      exact .error hm₁
    · simp only [hbudget, Bool.false_eq_true, if_false]
      exact .error hm₁

theorem composable (limits : Limits) (d : Nat) :
    Composable Stmt.Cut fun V x Y => InStep V x (Y limits d) := ⟨plain, bind⟩

theorem whileNonzero {limits : Limits} {d : Nat} {cond : Eval Int} {C : Family Int}
    {body : Eval Completion} {B : Family Completion} (hcond : InStep Eq cond (C limits d))
    (hbody : InStep Eq body (B limits d)) : ∀ n, InStep Eq (Eval.whileNonzero cond body n)
      (Eval.whileNonzero (C limits d) (B limits d) n) := by
  intro n
  induction n with
  | zero =>
    intro m m' hm hsteps
    exact ⟨.error hm, hsteps⟩
  | succ n ih =>
    have hround := (composable limits d).andThen (X := B)
      (Y := fun l k => Eval.whileNonzero (C l k) (B l k) n) hbody ih
    exact (composable limits d).branch (C := C) (X := fun _ _ => Pure.pure Completion.next)
      (Y := fun l k => Eval.andThen (B l k) (Eval.whileNonzero (C l k) (B l k) n)) hcond
      (pure Completion.next) hround

/-- What is known of the values on the left is known on both sides. -/
theorem ensuring {x y : Eval α} (h : InStep Eq x y) {P : α → Prop}
    (hP : ∀ m a m', x m = .ok a m' → P a) : InStep (fun a a' => a = a' ∧ P a) x y := by
  intro m m' hm hsteps
  obtain ⟨hends, hafter⟩ := h m m' hm hsteps
  refine ⟨?_, hafter⟩
  generalize hxm : x m = r at hends
  generalize y m' = r' at hends
  cases hends with
  | error hm₁ => exact .error hm₁
  | ok hm₁ ha => exact .ok hm₁ ⟨ha, hP _ _ _ hxm⟩

/-- What follows a returning statement on either side is not begun. -/
theorem returning_cons {exec exec' : Stmt → Eval Completion} {s s' : Stmt}
    (hs : InStep Eq (exec s) (exec' s')) (hnever : NeverNext (exec s)) (rest rest' : List Stmt) :
    InStep Eq (Eval.sequence exec (s :: rest)) (Eval.sequence exec' (s' :: rest')) := by
  have hne : ∀ m c m', exec s m = .ok c m' → c ≠ .next := by
    rintro m c m' h rfl
    exact hnever m m' h
  rw [Eval.sequence, Eval.sequence]
  refine (hs.ensuring hne).bind ?_
  rintro completion _ ⟨rfl, hreturned⟩
  cases completion with
  | next => exact absurd rfl hreturned
  | returned v => exact pure (Completion.returned v)

theorem simulation (limits : Limits) :
    Simulation Stmt.Cut limits fun d V x Y => InStep V x (Y limits d) where
  plain := plain
  bind := bind
  within := within
  tick := tick limits
  loop := fun hcond hbody => whileNonzero hcond hbody _
  deeper := fun h => h
  deepest := by
    intro α V Y hdeep m m' hm hsteps
    rw [hdeep limits]
    exact ⟨.error hm, hsteps⟩

end InStep

/-! ## Cuts are in step -/

/-- Every evaluation is in step with that of a cut statement. -/
theorem evaluator_inStep (limits : Limits) :
    ∀ d, EvaluatorSimulates Stmt.Cut limits (fun d V x Y => InStep V x (Y limits d)) d := by
  have hsim := InStep.simulation limits
  refine hsim.evaluator ?_
  intro d hlower s s' hs
  cases hs with
  | same => exact .inl (.refl Stmt.Cut.same s)
  | block hbody => exact .inl (.block hbody)
  | ifThen hyes => exact .inl (.ifThen hyes)
  | ifElse hyes hno => exact .inl (.ifElse hyes hno)
  | loop hbody => exact .inl (.loop hbody)
  | @behind before before' span s s' rest rest' kept hbefore hcut hreturning _ _ =>
    right
    have hd := hlower d (Nat.le_refl d)
    show InStep Eq (Stmt.exec limits (d + 1) _) (Stmt.exec limits (d + 1) _)
    unfold Stmt.exec
    refine (InStep.tick limits span).bind ?_
    rintro _ _ -
    show InStep Eq (Eval.sequence _ (before ++ s :: rest)) (Eval.sequence _ (before' ++ s' :: kept))
    rw [Eval.sequence_append, Eval.sequence_append]
    refine (InStep.composable limits d).andThen (X := fun l k => Eval.sequence (Stmt.exec l k) before')
      (Y := fun l k => Eval.sequence (Stmt.exec l k) (s' :: kept)) (hsim.sequence hd hbefore) ?_
    exact .returning_cons (hd.exec s s' hcut) (neverNext_of_returning limits hreturning d) rest kept

/-- The runs of a program and of a cut one. -/
theorem run_cut {p p' : Program} (h : p.Alike Stmt.Cut p') (limits : Limits) :
    (p.run limits).output = (p'.run limits).output ∧
    (p.run limits).steps = (p'.run limits).steps ∧
    (p.run limits).globals = (p'.run limits).globals ∧
    (p.run limits).halt = (p'.run limits).halt := by
  have hwork : InStep Eq (p.work limits) (p'.work limits) :=
    (InStep.simulation limits).work h (evaluator_inStep limits limits.frames)
  have hstart : p.start.steps = p'.start.steps := rfl
  obtain ⟨hends, hafter⟩ := hwork _ _ h.start hstart
  rw [← Program.run_machine, ← Program.run_machine] at hafter
  obtain ⟨houtput, hglobals, hhalt⟩ := hends.run
  exact ⟨houtput, hafter, hglobals, hhalt⟩

/-! ## Where a return leads -/

/-- In the work on a statement another one is executed, in the same call. -/
inductive Stmt.Under (limits : Limits) : Nat → Stmt → Machine → Nat → Stmt → Machine → Prop
  | here {d s m} : Under limits d s m d s m
  | inside {d s m m₁ u m₂ d' t m'} : Eval.tick limits s.span m = .ok () m₁ →
      s.Leads limits d m₁ (.stmt u) m₂ → Under limits d u m₂ d' t m' →
      Under limits (d + 1) s m d' t m'

/-- Behind full rounds the loop goes on as from there. -/
theorem Eval.whileNonzero_of_rounds {cond : Eval Int} {body : Eval Completion} {n : Nat}
    {m m' : Machine} (h : Rounds cond body n m m') :
    ∀ k, whileNonzero cond body (n + k) m = whileNonzero cond body k m' := by
  induction h with
  | none => intro k; rw [Nat.zero_add]
  | @more n m m₁ m₂ m₃ v _ hcond hv hbody ih =>
    intro k
    rw [Nat.add_assoc, Nat.add_comm 1 k, ih, whileNonzero, bind_of_ok hcond, if_neg hv,
      bind_of_ok hbody]

section

variable {limits : Limits} {d : Nat} {m m' : Machine} {v : Int}

/-- What a part of a statement returns, the statement returns. -/
theorem exec_of_leads {s u : Stmt} {m₁ m₂ : Machine} (htick : Eval.tick limits s.span m = .ok () m₁)
    (hleads : s.Leads limits d m₁ (.stmt u) m₂) (hu : u.exec limits d m₂ = .ok (.returned v) m') :
    s.exec limits (d + 1) m = .ok (.returned v) m' := by
  unfold Stmt.exec
  rw [Eval.bind_of_ok htick]
  generalize ht : Task.stmt u = t at hleads
  cases hleads with
  | block before hbefore =>
    cases ht
    show Eval.sequence _ _ m₁ = _
    rw [Eval.sequence_append, Eval.andThen_of_next hbefore, Eval.sequence_cons,
      Eval.andThen_of_returned hu]
  | yes hcond hv =>
    cases ht
    refine (Eval.bind_of_ok hcond).trans ?_
    rw [if_neg hv]
    exact hu
  | no hcond =>
    cases ht
    refine (Eval.bind_of_ok hcond).trans ?_
    rw [if_pos rfl]
    exact hu
  | @body span c body n _ m₁' _ w hrounds hle hcond hw =>
    cases ht
    obtain ⟨k, hk⟩ : ∃ k, limits.clock + 1 = n + (k + 1) := ⟨limits.clock - n, by omega⟩
    show Eval.whileNonzero _ _ (limits.clock + 1) m₁ = _
    rw [hk, Eval.whileNonzero_of_rounds hrounds, Eval.whileNonzero, Eval.bind_of_ok hcond,
      if_neg hw, Eval.bind_of_ok hu]
    rfl
  | _ => cases ht

/-- By induction on how deep the statement lies. -/
theorem exec_of_under {s u : Stmt} {d' : Nat} {m₁ : Machine}
    (h : Stmt.Under limits d s m d' u m₁) (hu : u.exec limits d' m₁ = .ok (.returned v) m') :
    s.exec limits d m = .ok (.returned v) m' := by
  induction h with
  | here => exact hu
  | inside htick hleads _ ih => exact exec_of_leads htick hleads (ih hu)

/-- A return that the body of a call comes to is the value of the call, and the call is over. -/
theorem call_of_under {span : Span} {name : String} {args : List Expr} {f : FunctionDef}
    {vs : List Int} {m₁ m₂ m₃ : Machine} {d' : Nat} {u : Stmt} (hname : name ≠ printName)
    (hcallee : Eval.callee span name args.length m = .ok f m₁)
    (hargs : Eval.each (Expr.eval limits d) args m₁ = .ok vs m₂)
    (h : Stmt.Under limits d f.body
      { m₂ with stack := ⟨f.name, .ofPairs f.params vs⟩ :: m₂.stack } d' u m₃)
    (hu : u.exec limits d' m₃ = .ok (.returned v) m') :
    callFunction limits (d + 1) span name args m = .ok v { m' with stack := m'.stack.tail } := by
  have hbody := exec_of_under h hu
  have hwithin : Eval.within ⟨f.name, .ofPairs f.params vs⟩ (f.body.exec limits d) m₂ =
      .ok (.returned v) { m' with stack := m'.stack.tail } := by
    simp only [Eval.within, hbody]
  unfold callFunction
  rw [if_neg hname, Eval.bind_of_ok hcallee, Eval.bind_of_ok hargs, Eval.bind_of_ok hwithin]
  rfl

/-- A return at the top ends the run, with no failure. -/
theorem run_of_under {p : Program} {d' : Nat} {u : Stmt} {m₁ : Machine}
    (h : Stmt.Under limits limits.frames p.body p.entry d' u m₁)
    (hu : u.exec limits d' m₁ = .ok (.returned v) m') :
    p.run limits = ⟨{ m' with stack := m'.stack.tail }, none⟩ := by
  have hbody := exec_of_under h hu
  have hwork : p.work limits p.start = .ok (.returned v) { m' with stack := m'.stack.tail } := by
    unfold Program.entry at hbody
    simp only [Program.work, Eval.within, hbody]
  exact Program.run_of_ok hwork

end

/-- **A return cuts exactly the rest of its function.**

    1. Without any statements that follow a returning statement in the same block, anywhere in a
       program, its run is the same in output, steps, globals and halt, under all limits.
    2. From states whose functions differ in this way, calls end alike, with the same value.
    3. A return that the work on the body of a call comes to, through blocks, branches and rounds of
       loops, is the value of this call; nothing more is done in its body.
    4. A return that the body of the program comes to in this way ends the run, with no failure. -/
theorem return_cuts_rest :
    (∀ p p' : Program, p.Alike Stmt.Cut p' → ∀ limits : Limits,
      (p.run limits).output = (p'.run limits).output ∧
      (p.run limits).steps = (p'.run limits).steps ∧
      (p.run limits).globals = (p'.run limits).globals ∧
      (p.run limits).halt = (p'.run limits).halt) ∧
    (∀ (limits : Limits) d span name args,
      InStep Eq (callFunction limits d span name args) (callFunction limits d span name args)) ∧
    (∀ (limits : Limits) d span name args f vs m m₁ m₂ d' u m₃ v m', name ≠ printName →
      Eval.callee span name args.length m = .ok f m₁ →
      Eval.each (Expr.eval limits d) args m₁ = .ok vs m₂ →
      Stmt.Under limits d f.body
        { m₂ with stack := ⟨f.name, .ofPairs f.params vs⟩ :: m₂.stack } d' u m₃ →
      u.exec limits d' m₃ = .ok (.returned v) m' →
      callFunction limits (d + 1) span name args m =
        .ok v { m' with stack := m'.stack.tail }) ∧
    ∀ (limits : Limits) (p : Program) d' u m₁ v m',
      Stmt.Under limits limits.frames p.body p.entry d' u m₁ →
      u.exec limits d' m₁ = .ok (.returned v) m' →
      p.run limits = ⟨{ m' with stack := m'.stack.tail }, none⟩ := by
  refine ⟨fun p p' => run_cut, fun limits d => (evaluator_inStep limits d).call, ?_, ?_⟩
  · intro limits d span name args f vs m m₁ m₂ d' u m₃ v m' hname hcallee hargs h hu
    exact call_of_under hname hcallee hargs h hu
  · intro limits p d' u m₁ v m' h hu
    exact run_of_under h hu

/-- `print(v);`, in a place that does not matter. -/
def Stmt.prints (e : Expr) : Stmt := .expr .nowhere (.call .nowhere printName [e])

/-- `func f(n) { if (n) { return n; print(1); } else return 0; print(2); } print(f(7)); return;
    print(3);` -/
def talkative : Program :=
  { span := .nowhere
    functions := [⟨.nowhere, "f", ["n"], .block .nowhere [
      .ifElse .nowhere (.var .nowhere "n")
        (.block .nowhere [.ret .nowhere (some (.var .nowhere "n")), .prints (.lit .nowhere 1)])
        (some (.ret .nowhere (some (.lit .nowhere 0)))),
      .prints (.lit .nowhere 2)]⟩]
    body := .block .nowhere [.prints (.call .nowhere "f" [.lit .nowhere 7]), .ret .nowhere none,
      .prints (.lit .nowhere 3)] }

/-- The same without the statements that are never executed. -/
def brief : Program :=
  { span := .nowhere
    functions := [⟨.nowhere, "f", ["n"], .block .nowhere [
      .ifElse .nowhere (.var .nowhere "n")
        (.block .nowhere [.ret .nowhere (some (.var .nowhere "n"))])
        (some (.ret .nowhere (some (.lit .nowhere 0))))]⟩]
    body := .block .nowhere [.prints (.call .nowhere "f" [.lit .nowhere 7]), .ret .nowhere none] }

theorem talkative_brief :
    (talkative.Alike Stmt.Cut brief ∧
      (talkative.run ⟨some 9, 0, 20⟩).output = "7\n" ∧ (brief.run ⟨some 9, 0, 20⟩).output = "7\n" ∧
      (talkative.run ⟨some 9, 0, 20⟩).steps = (brief.run ⟨some 9, 0, 20⟩).steps) ∧
    (∃ m, callFunction ⟨some 9, 0, 20⟩ 13 .nowhere "f" [.lit .nowhere 7] talkative.entry = .ok 7 m ∧
      m.steps = 4 ∧ m.calls = ["<main>"]) ∧
    (talkative.run ⟨some 9, 0, 20⟩).halt = none := by
  have hcut : talkative.Alike Stmt.Cut brief := by
    have hyes : (Stmt.block .nowhere [.ret .nowhere (some (.var .nowhere "n")),
        .prints (.lit .nowhere 1)]).Cut (.block .nowhere [.ret .nowhere (some (.var .nowhere "n"))]) :=
      .behind [] [] .nil (.same _) (.ret _ _) (.cons (.same _) .nil) (List.nil_sublist _)
    have hreturning : (Stmt.block .nowhere [.ret .nowhere (some (.var .nowhere "n")),
        .prints (.lit .nowhere 1)]).Returning := .block List.mem_cons_self (.ret _ _)
    refine ⟨rfl, .cons ⟨rfl, rfl, rfl, ?_⟩ .nil, ?_⟩
    · exact .behind [] [] .nil (.ifElse hyes (.same _)) (.ifElse hreturning (.ret _ _))
        (.cons (.same _) .nil) (List.nil_sublist _)
    · exact .behind [_] [_] (.cons (.same _) .nil) (.same _) (.ret _ _)
        (.cons (.same _) .nil) (List.nil_sublist _)
  obtain ⟨houtput, hsteps, -, -⟩ := return_cuts_rest.1 talkative brief hcut ⟨some 9, 0, 20⟩
  have htalks : (talkative.run ⟨some 9, 0, 20⟩).output = "7\n" := by decide +kernel
  have hcall := return_cuts_rest.2.2.1 ⟨some 9, 0, 20⟩ 12 .nowhere "f" [.lit .nowhere 7] _ _
    talkative.entry _ _ _ _ _ _ _ (by decide) rfl rfl
    (.inside rfl (.block [] rfl) (.inside rfl (.yes rfl (by decide))
      (.inside rfl (.block [] rfl) .here))) rfl
  have hend := return_cuts_rest.2.2.2 ⟨some 9, 0, 20⟩ talkative _ _ _ _ _
    (.inside rfl (.block [_] rfl) .here) rfl
  exact ⟨⟨hcut, htalks, houtput ▸ htalks, hsteps⟩, ⟨_, hcall, rfl, rfl⟩, congrArg Outcome.halt hend⟩

end MiniLang
