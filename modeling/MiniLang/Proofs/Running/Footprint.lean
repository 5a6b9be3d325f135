/-
  What a statement can write.

  An assignment writes the innermost live binding of its name, in whatever call that is, and the
  global entry if there is none.  So a statement can write the locals of its callers, and a call deep
  inside it can; which names it can write at all shows in the tree.

  1. **In reach** — `p.InReach s body`: a statement, the bodies of the functions that are called in
     it, of those that are called in these, and so on.  `p.MayAssign s x`: a name is assigned in one
     of them.
  2. **Known functions** — `p.Knows m`: what a name can call in a state is its last definition.  A
     run never leaves such states, so whatever it comes to from a statement is inside a statement
     that is in reach (`inReach_of_reaches`).
  3. **The footprint** — a name that a statement may not assign is left undisturbed by whatever is
     changed during its execution (`undisturbed_of_passed`), whichever way it ends.
-/
import MiniLang.Proofs.Running.Handing

namespace MiniLang

/-! ## In reach -/

/-- What the execution of a statement may come to, read off the calls by name.  What prints is never
    a function of the program, also if there is one of that name. -/
inductive Program.InReach (p : Program) (s : Stmt) : Stmt → Prop
  | here : InReach p s s
  | call {body name f} : InReach p s body → name ∈ body.calls → name ≠ printName →
      p.definition? name = some f → InReach p s f.body

/-- A name is assigned in a statement, or in the body of a function in its reach. -/
def Program.MayAssign (p : Program) (s : Stmt) (x : String) : Prop :=
  ∃ body, p.InReach s body ∧ x ∈ body.targets

theorem Stmt.mem_calls {s : Stmt} {span : Span} {name : String} {args : List Expr}
    (h : .expr (.call span name args) ∈ s.nodes) : name ∈ s.calls :=
  List.mem_filterMap.mpr ⟨_, h, rfl⟩

theorem Stmt.mem_targets {s : Stmt} {span : Span} {name : String} {e : Expr}
    (h : .stmt (.assign span name e) ∈ s.nodes) : name ∈ s.targets :=
  List.mem_filterMap.mpr ⟨_, h, rfl⟩

/-! ## Known functions -/

/-- What a name stands for as a function is its last definition in the program. -/
def Program.Knows (p : Program) (m : Machine) : Prop :=
  ∀ name f, m.globals.get? name = some (.function f) → p.definition? name = some f

theorem Program.knows_of_passed {p : Program} {limits : Limits} {m : Machine}
    (hm : m ∈ p.passed limits) : p.Knows m := fun _ _ hf => definition_of_passed hm hf

/-- No function is made known in a run. -/
theorem Program.lasting_knows (p : Program) : Machine.Lasting fun m m' => p.Knows m → p.Knows m' where
  refl := fun _ h => h
  trans := fun h h' hm => h' (h hm)
  step := fun _ h => h
  assign := by
    intro m name v hm g f hf
    exact hm g f ((Machine.Later.assign m name v).functions g f hf)
  emit := fun _ _ h => h
  call := fun h => h

section

variable {p : Program} {limits : Limits} {d d₀ : Nat} {s : Stmt} {t t₀ : Task} {m₀ m : Machine}

theorem knows_of_reaches (hm₀ : p.Knows m₀) (h : t₀.Reaches limits d₀ m₀ d t m) : p.Knows m := by
  induction h with
  | here => exact hm₀
  | deeper _ hbegins ih =>
    cases hbegins.hands p.lasting_knows with
    | below _ hknows => exact hknows ih
    | body _ _ hknows => exact hknows ih

/-- Whatever the execution of a statement comes to is inside a statement in its reach. -/
theorem inReach_of_reaches (hm₀ : p.Knows m₀)
    (h : (Task.stmt s).Reaches limits d₀ m₀ d t m) :
    ∃ body, p.InReach s body ∧ t.node.nodes ⊆ body.nodes := by
  induction h with
  | here => exact ⟨s, .here, List.Subset.refl _⟩
  | deeper hreaches hbegins ih =>
    obtain ⟨body, hreach, hinside⟩ := ih
    cases hbegins.hands p.lasting_knows with
    | below hnode _ =>
      refine ⟨body, hreach, ?_⟩
      rcases hnode with hsame | hchild
      · rw [hsame]
        exact hinside
      · exact List.Subset.trans hchild.nodes_subset hinside
    | body hname hcallee _ =>
      have hcalled := Stmt.mem_calls (hinside (Node.self_mem_nodes _))
      have hknows := knows_of_reaches hm₀ hreaches
      have hdefinition := hknows _ _ (Machine.get?_of_callee? hcallee)
      exact ⟨_, .call hreach hcalled hname hdefinition, List.Subset.refl _⟩

/-! ## The footprint -/

/-- During the execution of a statement that may not assign a name, nothing disturbs what was there
    of it at first. -/
theorem undisturbed_of_passed {x : String} (hm : p.Knows m) (hx : ¬ p.MayAssign s x) :
    ∀ m' ∈ m :: s.passed limits d m, m.Undisturbed x m' := by
  have hpath := ((evaluator_accounts limits d).exec s m).path
  refine hpath.invariant (.refl x m) ?_
  intro a b hchanges ha
  obtain ⟨_, t, m₁, hreaches, hdoes⟩ := hchanges
  have hlive : m.outline <:+ b.outline := (outline_of_reaches hreaches).trans hdoes.outline.2
  refine hdoes.undisturbed hlive ha ?_
  intro span e v ht
  -- the assignment is in reach of the statement, which may not assign the name
  subst ht
  obtain ⟨body, hreach, hinside⟩ := inReach_of_reaches hm hreaches
  have htarget := Stmt.mem_targets (hinside (Node.self_mem_nodes _))
  exact absurd ⟨body, hreach, htarget⟩ hx

end

/-- **What a statement can write.**  In every state that a run passes, the functions are known as
    they are last defined.  Wherever they are, a statement that is executed there, and that ends in
    whatever way, leaves of every name that it may not assign what all live calls bind it to, and
    what it is globally, if it is anything: only an assignment in the statement itself, or in a
    function that it reaches by calls, can change that. -/
theorem footprint_of_exec (p : Program) :
    (∀ limits, ∀ m ∈ p.passed limits, p.Knows m) ∧
    ∀ limits d (s : Stmt) (m : Machine) (x : String), p.Knows m → ¬ p.MayAssign s x →
      ((s.exec limits d).after m).bindings x = m.bindings x ∧
      ((s.exec limits d).after m).globals.get? x = m.globals.get? x := by
  refine ⟨fun _ _ => Program.knows_of_passed, ?_⟩
  intro limits d s m x hm hx
  have hlast : (s.exec limits d).after m ∈ m :: s.passed limits d m := closes_exec s m
  have hkept := undisturbed_of_passed hm hx _ hlast
  have houtline : ((s.exec limits d).after m).outline = m.outline :=
    (evaluator_keeps Machine.lasting_outline limits d).exec s m
  have hlength : (m.bindings x).length = (((s.exec limits d).after m).bindings x).length := by
    rw [Machine.length_bindings, Machine.length_bindings, houtline]
  exact ⟨(hkept.bindings.eq_of_length hlength).symm, hkept.entry⟩

/-- A function that calls itself and then another one, which counts; a third one assigns `x`. -/
def tallying : Program :=
  { span := .nowhere
    functions := [
      ⟨.nowhere, "f", ["a"], .block .nowhere [
        .ifElse .nowhere (.var .nowhere "a") (.expr .nowhere (.call .nowhere "f"
          [.binary .nowhere (.var .nowhere "a") .minus (.lit .nowhere 1)])) none,
        .expr .nowhere (.call .nowhere "g" [])]⟩,
      ⟨.nowhere, "g", [], .assign .nowhere "b"
        (.binary .nowhere (.var .nowhere "b") .plus (.lit .nowhere 1))⟩,
      ⟨.nowhere, "h", [], .assign .nowhere "x" (.lit .nowhere 9)⟩]
    body := .block .nowhere [] }

/-- Calls the first function, and then fails. -/
def tallied : Stmt := .block .nowhere [
  .expr .nowhere (.call .nowhere "f" [.lit .nowhere 2]),
  .expr .nowhere (.binary .nowhere (.lit .nowhere 1) .slash (.lit .nowhere 0))]

/-- A state in which a caller binds both names. -/
def tallying.inCaller : Machine :=
  { tallying.start with stack := [⟨"caller", [("x", 7), ("b", 0)]⟩, mainRecord] }

/-- The statement reaches the first two functions and no others. -/
theorem tallied_reaches {body : Stmt} (h : tallying.InReach tallied body) :
    body.targets ⊆ ["b"] ∧ body.calls ⊆ ["f", "g"] := by
  induction h with
  | here =>
    simp only [tallied, Stmt.targets, Stmt.calls, Stmt.nodes, Expr.nodes, List.flatMap_cons,
      List.flatMap_nil]
    decide
  | call _ hcalled _ hdefinition ih =>
    rcases List.mem_pair.mp (ih.2 hcalled) with rfl | rfl
    all_goals
      cases hdefinition
      simp only [Stmt.targets, Stmt.calls, Stmt.nodes, Expr.nodes, List.flatMap_cons,
        List.flatMap_nil]
      decide

theorem tallied_undisturbed :
    tallying.Knows tallying.inCaller ∧ ¬ tallying.MayAssign tallied "x" ∧
    (∃ m, tallied.exec ⟨some 30, 0, 30⟩ 30 tallying.inCaller =
      .error (.failed .divisionByZero .nowhere ["caller", "<main>"]) m) ∧
    ((tallied.exec ⟨some 30, 0, 30⟩ 30).after tallying.inCaller).bindings "b" = [some 3, none] ∧
    ((tallied.exec ⟨some 30, 0, 30⟩ 30).after tallying.inCaller).bindings "x" = [some 7, none] ∧
    ((tallied.exec ⟨some 30, 0, 30⟩ 30).after tallying.inCaller).globals.get? "x" = none := by
  have hknows : tallying.Knows tallying.start :=
    (footprint_of_exec tallying).1 ⟨some 30, 0, 30⟩ _ List.mem_cons_self
  have hspared : ¬ tallying.MayAssign tallied "x" := by
    rintro ⟨body, hreach, htarget⟩
    have hmem := (tallied_reaches hreach).1 htarget
    exact absurd hmem (by decide)
  have hkept := (footprint_of_exec tallying).2 ⟨some 30, 0, 30⟩ 30 tallied tallying.inCaller "x"
    hknows hspared
  have hhalt : (match tallied.exec ⟨some 30, 0, 30⟩ 30 tallying.inCaller with
      | .error halt _ => some halt
      | .ok _ _ => none) =
      some (.failed .divisionByZero .nowhere ["caller", "<main>"]) := by decide +kernel
  refine ⟨hknows, hspared, ?_, by decide +kernel, hkept.1, hkept.2⟩
  cases h : tallied.exec ⟨some 30, 0, 30⟩ 30 tallying.inCaller with
  | ok c m => simp [h] at hhalt
  | error halt m =>
    simp only [h] at hhalt
    cases hhalt
    exact ⟨m, rfl⟩

end MiniLang
