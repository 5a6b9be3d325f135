/-
  What lasts in a run, and how a function is lost.

  1. **Definitions** — `Program.definition? p f` is the last definition of a name, and it is what the
     name stands for when the run starts.
  2. **Later states** — `m.Later m'`: nothing that was printed, counted or named is taken back, no
     variable becomes a function, and no function is made known.  Every change leads to a later
     state.
  3. **Overwriting** — the one change after which a name is no function any more: an assignment to it
     is executed while no live call binds it (`overwrites_of_changes`).
  4. **Runs** — between two states that a run passes the second is later, and a function that is lost
     in between was overwritten in between; so it can be called as long as it was not, whatever the
     live calls bind (`history_of_run`).
-/
import MiniLang.Proofs.Running.Passed
import MiniLang.Proofs.Running.MoreFrames

namespace MiniLang

/-! ## Definitions -/

/-- The last definition of a name in a program. -/
def Program.definition? (p : Program) (f : String) : Option FunctionDef :=
  p.functions.reverse.find? (·.name == f)

/-- Functions that are made known one after the other: of two with one name the later one counts. -/
theorem Table.get?_define (f : String) : ∀ (functions : List FunctionDef) (t : Table Symbol),
    (functions.foldl (fun t g => t.set g.name (.function g)) t).get? f =
      ((functions.reverse.find? (·.name == f)).map Symbol.function).or (t.get? f) := by
  intro functions
  induction functions with
  | nil => exact fun _ => rfl
  | cons g rest ih =>
    intro t
    rw [List.foldl_cons, ih, List.reverse_cons, List.find?_append]
    cases rest.reverse.find? (·.name == f) with
    | some last => rfl
    | none =>
      by_cases hname : g.name = f
      · subst hname
        simp [get?_set_self]
      · rw [get?_set_of_ne t _ (Ne.symm hname)]
        simp [hname]

theorem Program.get?_start (p : Program) (f : String) :
    p.start.globals.get? f = (p.definition? f).map Symbol.function := by
  have hdefined := Table.get?_define f p.functions []
  rw [show Table.get? ([] : Table Symbol) f = none from rfl, Option.or_none] at hdefined
  exact hdefined

/-! ## Later states -/

namespace Machine

/-- What holds between a state of a run and one that follows it. -/
structure Later (m m' : Machine) : Prop where
  output : m.output.toList <+: m'.output.toList
  steps : m.steps ≤ m'.steps
  names : ∀ f, m.globals.has f = true → m'.globals.has f = true
  values : ∀ f v, m.globals.get? f = some (.variable v) →
    ∃ w, m'.globals.get? f = some (.variable w)
  functions : ∀ f g, m'.globals.get? f = some (.function g) →
    m.globals.get? f = some (.function g)

namespace Later

variable {m m₁ m' : Machine}

theorem refl (m : Machine) : m.Later m :=
  ⟨List.prefix_refl _, Nat.le_refl _, fun _ h => h, fun _ v h => ⟨v, h⟩, fun _ _ h => h⟩

theorem trans (h : m.Later m₁) (h' : m₁.Later m') : m.Later m' where
  output := h.output.trans h'.output
  steps := Nat.le_trans h.steps h'.steps
  names := fun f hf => h'.names f (h.names f hf)
  values := by
    intro f v hf
    obtain ⟨w, hw⟩ := h.values f v hf
    exact h'.values f w hw
  functions := fun f g hg => h.functions f g (h'.functions f g hg)

/-- A change that leaves the globals alone. -/
theorem of_grown (h : m.Grown m') (hglobals : m'.globals = m.globals) : m.Later m' := by
  refine ⟨output_isPrefix h.1, h.2, ?_, ?_, ?_⟩
  · exact fun f hf => hglobals ▸ hf
  · exact fun f v hf => ⟨v, hglobals ▸ hf⟩
  · exact fun f g hg => hglobals ▸ hg

theorem assign (m : Machine) (name : String) (v : Int) : m.Later (m.assign name v) := by
  have hgrown := lasting_grown.assign m name v
  cases hrebind : rebindIn m.stack name v with
  | some stack =>
    have hassign : m.assign name v = { m with stack } := by
      rw [Machine.assign, hrebind]
    exact of_grown hgrown (by rw [hassign])
  | none =>
    have hglobals : (m.assign name v).globals = m.globals.set name (.variable v) := by
      rw [Machine.assign, hrebind]
    have hget : ∀ f, (m.assign name v).globals.get? f =
        if f = name then some (.variable v) else m.globals.get? f := by
      intro f
      rw [hglobals, Table.get?_set]
    refine ⟨output_isPrefix hgrown.1, hgrown.2, ?_, ?_, ?_⟩
    · intro f hf
      rw [Table.has, hget]
      split
      · rfl
      · exact hf
    · intro f w hf
      rw [hget]
      split
      · exact ⟨v, rfl⟩
      · exact ⟨w, hf⟩
    · intro f g hg
      rw [hget] at hg
      split at hg
      · cases hg
      · exact hg

end Later

/-- A name that cannot be bound anew is bound in no live call. -/
theorem unbound_of_rebindIn {name : String} {v : Int} : ∀ {stack : List Record},
    rebindIn stack name v = none → ∀ record ∈ stack, record.locals.has name = false := by
  intro stack
  induction stack with
  | nil => exact fun _ => nofun
  | cons record rest ih =>
    intro h
    rw [rebindIn] at h
    by_cases hbound : record.locals.has name = true
    · rw [if_pos hbound] at h
      cases h
    · rw [if_neg hbound] at h
      exact List.forall_mem_cons.mpr
        ⟨Bool.eq_false_iff.mpr hbound, ih (Option.map_eq_none_iff.mp h)⟩

end Machine

section

variable {limits : Limits} {p : Program} {m m' : Machine}

/-- What a task changes leads to a later state. -/
theorem later_of_does {d : Nat} {t : Task} {m₁ : Machine} (h : t.Does limits d m₁ m m') :
    m.Later m' := by
  cases h with
  | count => exact .of_grown (Machine.lasting_grown.step m) rfl
  | assign _ _ => exact .assign m _ _
  | print _ => exact .of_grown (Machine.lasting_grown.emit m _) rfl
  | enter _ => exact .of_grown (Machine.lasting_grown.refl m') rfl
  | leave _ => exact .of_grown (Machine.lasting_grown.refl _) rfl

theorem later_of_changes (h : p.Changes limits m m') : m.Later m' := by
  cases h with
  | start => exact .of_grown (Machine.lasting_grown.refl p.start) rfl
  | task _ hdoes => exact later_of_does hdoes
  | finish =>
    rw [Program.run_machine, Program.work, Eval.after_within]
    exact .of_grown (Machine.lasting_grown.refl _) rfl

/-! ## Overwriting -/

/-- An assignment to a name that the run comes to is executed, from the state in which its value is
    known, and no live call binds the name. -/
def Program.Overwrites (limits : Limits) (p : Program) (f : String) (m m' : Machine) : Prop :=
  ∃ d span e m₀ m₁ v, p.Reaches limits (d + 1) (.stmt (.assign span f e)) m₀ ∧
    Eval.tick limits span m₀ = .ok () m₁ ∧ e.eval limits d m₁ = .ok v m ∧
    (∀ record ∈ m.stack, record.locals.has f = false) ∧
    m' = { m with globals := m.globals.set f (.variable v) }

/-- A function is kept by every change but its overwriting. -/
theorem overwrites_of_changes {f : String} {g : FunctionDef} (h : p.Changes limits m m')
    (hf : m.globals.get? f = some (.function g)) :
    m'.globals.get? f = some (.function g) ∨ p.Overwrites limits f m m' := by
  cases h with
  | start => exact .inl hf
  | finish =>
    rw [Program.run_machine, Program.work, Eval.after_within]
    exact .inl hf
  | task hreaches hdoes =>
    cases hdoes with
    | count => exact .inl hf
    | print _ => exact .inl hf
    | enter _ => exact .inl hf
    | leave _ => exact .inl hf
    | @assign span name e _ m₁ _ v htick he =>
      unfold Machine.assign
      cases hrebind : Machine.rebindIn m.stack name v with
      | some stack => exact .inl hf
      | none =>
        by_cases hname : f = name
        · subst hname
          exact .inr ⟨_, span, e, _, m₁, v, hreaches, htick, he,
            Machine.unbound_of_rebindIn hrebind, rfl⟩
        · refine .inl ?_
          show (m.globals.set name _).get? f = _
          rwa [Table.get?_set_of_ne _ _ hname]

/-- The run overwrites a name between two states that it passes, of which the first one has the
    number `k`. -/
def Program.OverwritesAt (limits : Limits) (p : Program) (f : String) (k : Nat) : Prop :=
  ∃ m m', (p.passed limits)[k]? = some m ∧ (p.passed limits)[k + 1]? = some m' ∧
    p.Overwrites limits f m m'

/-! ## Runs -/

theorem head?_passed (limits : Limits) (p : Program) :
    (p.passed limits).head? = some p.start := rfl

theorem getLast?_passed (limits : Limits) (p : Program) :
    (p.passed limits).getLast? = some (p.run limits).machine := by
  obtain ⟨ms, hms, hpath⟩ := p.path_of_run limits
  rw [hms]
  exact hpath.last

theorem changes_of_passed {i : Nat} (hm : (p.passed limits)[i]? = some m)
    (hm' : (p.passed limits)[i + 1]? = some m') : p.Changes limits m m' := by
  obtain ⟨ms, hms, hpath⟩ := p.path_of_run limits
  rw [hms] at hm hm'
  exact hpath.next hm hm'

/-- What holds of a state and of whatever is changed from it: by induction on the number of the
    later state. -/
theorem passed_induction {R : Nat → Machine → Prop} {i : Nat}
    (hm : (p.passed limits)[i]? = some m) (hfirst : R i m)
    (hnext : ∀ j m₁ m₂, i ≤ j → (p.passed limits)[j]? = some m₁ →
      (p.passed limits)[j + 1]? = some m₂ → R j m₁ → R (j + 1) m₂) :
    ∀ {j : Nat} {m' : Machine}, i ≤ j → (p.passed limits)[j]? = some m' → R j m' := by
  intro j m' hij
  obtain ⟨k, rfl⟩ := Nat.exists_eq_add_of_le hij
  induction k generalizing m' with
  | zero =>
    intro hm'
    rw [Nat.add_zero, hm] at hm'
    cases hm'
    exact hfirst
  | succ k ih =>
    intro hm'
    have hlength := (List.getElem?_eq_some_iff.mp hm').1
    have hm₁ := List.getElem?_eq_getElem (Nat.lt_of_succ_lt hlength)
    exact hnext (i + k) _ m' (Nat.le_add_right i k) hm₁ hm' (ih (Nat.le_add_right i k) hm₁)

theorem later_of_passed {i j : Nat} (hij : i ≤ j) (hm : (p.passed limits)[i]? = some m)
    (hm' : (p.passed limits)[j]? = some m') : m.Later m' := by
  refine passed_induction (R := fun _ m₁ => m.Later m₁) hm (.refl m) ?_ hij hm'
  intro k m₁ m₂ _ hm₁ hm₂ hlater
  exact hlater.trans (later_of_changes (changes_of_passed hm₁ hm₂))

/-- A function is there as long as it was not overwritten. -/
theorem function_of_passed {i j : Nat} {f : String} {g : FunctionDef} (hij : i ≤ j)
    (hm : (p.passed limits)[i]? = some m) (hm' : (p.passed limits)[j]? = some m')
    (hf : m.globals.get? f = some (.function g)) :
    m'.globals.get? f = some (.function g) ∨
      ∃ k, i ≤ k ∧ k < j ∧ p.OverwritesAt limits f k := by
  refine passed_induction (R := fun j m₁ => m₁.globals.get? f = some (.function g) ∨
    ∃ k, i ≤ k ∧ k < j ∧ p.OverwritesAt limits f k) hm (.inl hf) ?_ hij hm'
  intro k m₁ m₂ hik hm₁ hm₂ hk
  rcases hk with hfun | ⟨l, hil, hlk, hover⟩
  · rcases overwrites_of_changes (changes_of_passed hm₁ hm₂) hfun with hkept | hlost
    · exact .inl hkept
    · exact .inr ⟨k, hik, Nat.lt_succ_self k, m₁, m₂, hm₁, hm₂, hlost⟩
  · exact .inr ⟨l, hil, Nat.lt_succ_of_lt hlk, hover⟩

/-- What a name is known as is its last definition. -/
theorem definition_of_passed {f : String} {g : FunctionDef} (hm : m ∈ p.passed limits)
    (hf : m.globals.get? f = some (.function g)) : p.definition? f = some g := by
  obtain ⟨j, hj⟩ := List.mem_iff_getElem?.mp hm
  have hstart : (p.passed limits)[0]? = some p.start := rfl
  have hbefore := (later_of_passed (Nat.zero_le j) hstart hj).functions f g hf
  rw [p.get?_start] at hbefore
  obtain ⟨g', hg', hsymbol⟩ := Option.map_eq_some_iff.mp hbefore
  cases hsymbol
  exact hg'

/-- A name that a program defines can be called as long as it was not overwritten. -/
theorem callee_of_passed {j : Nat} {f : String} {g : FunctionDef} (hf : p.definition? f = some g)
    (hm : (p.passed limits)[j]? = some m) (hkept : ∀ k < j, ¬ p.OverwritesAt limits f k) :
    m.callee? f = some g := by
  have hstart : p.start.globals.get? f = some (.function g) := by rw [p.get?_start, hf]; rfl
  have hfirst : (p.passed limits)[0]? = some p.start := rfl
  rcases function_of_passed (Nat.zero_le j) hfirst hm hstart with hfun | ⟨k, _, hk, hover⟩
  · rw [Machine.callee?, hfun]
  · exact absurd hover (hkept k hk)

/-- A run that fails for want of a function which the program defines has overwritten it. -/
theorem overwritten_of_unknown {f : String} {span : Span} {calls : List String}
    (hf : (p.definition? f).isSome = true)
    (h : (p.run limits).halt = some (.failed (.unknownFunction f) span calls)) :
    ∃ k, p.OverwritesAt limits f k := by
  obtain ⟨g, hg⟩ := Option.isSome_iff_exists.mp hf
  obtain ⟨d, t, m₁, m, _, hfails, _, hglobals⟩ := Program.origin_of_run h
  have hunknown : m.callee? f = none := by
    cases hfails with
    | callee _ hcallee => exact hcallee
    | operate _ _ happly =>
      rcases Token.Kind.fault_of_apply happly with ⟨hfault, _⟩ | hfault
      · cases hfault
      · cases hfault
  -- leaving the calls after the failure changes no global, so `f` is no function in the end
  have hlast := getLast?_passed limits p
  rw [List.getLast?_eq_getElem?] at hlast
  refine Classical.byContradiction fun hnever => ?_
  have hcallee := callee_of_passed hg hlast fun k _ hk => hnever ⟨k, hk⟩
  rw [Machine.callee?, hglobals] at hcallee
  rw [Machine.callee?] at hunknown
  rw [hunknown] at hcallee
  cases hcallee

end

/-- **What lasts in a run, and how a function is lost.**  The states that a run passes lead by single
    changes from the one in which it starts to the one that it leaves, and whatever task the run
    comes to begins in one of them.  Of two of them the second is later, and a function that is lost
    in between is overwritten in between by an assignment, while no live call binds its name.  What a
    name is known as is its last definition.  So a run fails for want of a function that the program
    defines only if it has overwritten it, and before that the function can be called whatever the
    live calls bind. -/
theorem history_of_run (limits : Limits) (p : Program) :
    ((p.passed limits).head? = some p.start ∧
      (p.passed limits).getLast? = some (p.run limits).machine ∧
      (∀ i m m', (p.passed limits)[i]? = some m → (p.passed limits)[i + 1]? = some m' →
        p.Changes limits m m') ∧
      ∀ d t m, p.Reaches limits d t m → m ∈ p.passed limits) ∧
    (∀ i j m m', i ≤ j → (p.passed limits)[i]? = some m → (p.passed limits)[j]? = some m' →
      m.Later m' ∧
      ∀ f g, m.globals.get? f = some (.function g) →
        m'.globals.get? f = some (.function g) ∨
          ∃ k, i ≤ k ∧ k < j ∧ p.OverwritesAt limits f k) ∧
    (∀ m ∈ p.passed limits, ∀ f g, m.globals.get? f = some (.function g) →
      p.definition? f = some g) ∧
    (∀ f span calls, (p.definition? f).isSome = true →
      (p.run limits).halt = some (.failed (.unknownFunction f) span calls) →
      ∃ k, p.OverwritesAt limits f k) ∧
    ∀ j m f g, p.definition? f = some g → (p.passed limits)[j]? = some m →
      (∀ k < j, ¬ p.OverwritesAt limits f k) →
      ∀ stack, Machine.callee? { m with stack } f = some g := by
  refine ⟨⟨head?_passed limits p, getLast?_passed limits p, fun _ _ _ => changes_of_passed, ?_⟩,
    ?_, fun _ hm _ _ => definition_of_passed hm, fun _ _ _ => overwritten_of_unknown, ?_⟩
  · exact fun d t m hreaches => passed_of_reaches hreaches (.head _)
  · intro i j m m' hij hm hm'
    exact ⟨later_of_passed hij hm hm', fun f g => function_of_passed hij hm hm'⟩
  · intro j m f g hf hm hkept stack
    have hcallee := callee_of_passed hf hm hkept
    exact hcallee

/-- A function that calls itself while its parameter, a local, has its name, and that is overwritten
    before it is called again. -/
def shadowing : Program :=
  { span := .nowhere
    functions := [⟨.nowhere, "f", ["f"], .block .nowhere [
      .ifElse .nowhere (.var .nowhere "f") (.expr .nowhere (.call .nowhere "f"
        [.binary .nowhere (.var .nowhere "f") .minus (.lit .nowhere 1)])) none,
      .expr .nowhere (.call .nowhere printName [.var .nowhere "f"])]⟩]
    body := .block .nowhere [
      .expr .nowhere (.call .nowhere "f" [.lit .nowhere 1]),
      .assign .nowhere "f" (.lit .nowhere 2),
      .expr .nowhere (.call .nowhere "f" [.lit .nowhere 3])] }

theorem shadowing_overwrites :
    (shadowing.run ⟨some 20, 0, 20⟩).output = "0\n1\n" ∧
    (shadowing.run ⟨some 20, 0, 20⟩).halt =
      some (.failed (.unknownFunction "f") .nowhere ["<main>"]) ∧
    ∃ k, shadowing.OverwritesAt ⟨some 20, 0, 20⟩ "f" k := by
  have hdefined : (shadowing.definition? "f").isSome = true := by decide
  have hunknown : (shadowing.run ⟨some 20, 0, 20⟩).halt =
      some (.failed (.unknownFunction "f") .nowhere ["<main>"]) := by decide +kernel
  refine ⟨by decide +kernel, hunknown, ?_⟩
  exact (history_of_run ⟨some 20, 0, 20⟩ shadowing).2.2.2.1 "f" _ _ hdefined hunknown

end MiniLang
