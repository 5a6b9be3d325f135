/-
  Frames only truncate an evaluation.

  Two evaluations of one thing, one of them with more frames, go the same way as long as the
  frames of the other last.

  1. **Comparison** — `Extends x y`: from every state, `y` ends as `x` does, or `x` runs out of
     frames, in a state that has printed and counted no more than what `y` leaves.
  2. **Steps of the proof** — `Extends.bind` puts comparisons one behind the other.  Where `x` is
     cut short, `y` goes on with computations that it can only print and count more in; this is
     why `Extends` has the growth of `y` as a part of its own.
  3. **The evaluator** — extending is a congruence, so every evaluation extends to the one with more
     frames (`evaluator_extends`), and so do whole runs (`run_extends`).
-/
import MiniLang.Proofs.Budget.Truncation
import MiniLang.Proofs.Running.History

namespace MiniLang

/-- The later state has printed and counted no less. -/
def Machine.Grown (m m' : Machine) : Prop :=
  m.printed.toList <+: m'.printed.toList ∧ m.steps ≤ m'.steps

theorem Machine.lasting_grown : Lasting Grown where
  refl := fun _ => ⟨List.prefix_refl _, Nat.le_refl _⟩
  trans := fun h₁ h₂ => ⟨h₁.1.trans h₂.1, Nat.le_trans h₁.2 h₂.2⟩
  step := fun m => ⟨List.prefix_refl _, Nat.le_succ m.steps⟩
  assign := by
    intro m name v
    have hsame : (m.assign name v).printed = m.printed ∧ (m.assign name v).steps = m.steps := by
      unfold assign
      cases rebindIn m.stack name v with
      | none => exact ⟨rfl, rfl⟩
      | some stack => exact ⟨rfl, rfl⟩
    rw [Grown, hsame.1, hsame.2]
    exact ⟨List.prefix_refl _, Nat.le_refl _⟩
  emit := by
    intro m v
    refine ⟨?_, Nat.le_refl _⟩
    rw [Array.toList_push]
    exact List.prefix_append _ _
  call := fun h => h

open Machine (Grown lasting_grown)

/-! ## Comparison -/

/-- The second computation is the first one with no fewer frames. -/
structure Extends {α : Type} (x y : Eval α) : Prop where
  grows : Eval.Keeps Grown y
  /-- They end alike, unless the frames of the first are used up. -/
  agrees : ∀ m, x m = y m ∨ ∃ m', x m = .error .tooDeep m' ∧ Grown m' (y.after m)

namespace Extends

variable {α β : Type}

/-- A computation that does not look at the frames. -/
theorem refl {x : Eval α} (h : Eval.Keeps Grown x) : Extends x x := ⟨h, fun _ => .inl rfl⟩

theorem of_still {x : Eval α} (h : Eval.Still x) : Extends x x := refl (.of_still lasting_grown h)

/-- Without frames everything is cut short at once. -/
theorem tooDeep {y : Eval α} (h : Eval.Keeps Grown y) : Extends Eval.tooDeep y :=
  ⟨h, fun m => .inr ⟨m, rfl, h m⟩⟩

theorem bind {x y : Eval α} {f g : α → Eval β} (hx : Extends x y) (hf : ∀ a, Extends (f a) (g a)) :
    Extends (x >>= f) (y >>= g) := by
  refine ⟨.bind lasting_grown hx.grows fun a => (hf a).grows, ?_⟩
  intro m
  rcases hx.agrees m with hsame | ⟨m', hcut, hgrown⟩
  · cases hy : y m with
    | error halt m' =>
      left
      rw [Eval.bind_of_error (hsame.trans hy), Eval.bind_of_error hy]
    | ok a m' =>
      rw [Eval.bind_of_ok (hsame.trans hy), Eval.bind_of_ok hy, Eval.after_bind_of_ok hy]
      exact (hf a).agrees m'
  · right
    refine ⟨m', Eval.bind_of_error hcut, ?_⟩
    cases hy : y m with
    | error halt m₁ =>
      rw [Eval.after_bind_of_error hy]
      exact hgrown
    | ok a m₁ =>
      -- the longer computation goes on, and takes nothing back
      rw [Eval.after_of_ok hy] at hgrown
      rw [Eval.after_bind_of_ok hy]
      exact lasting_grown.trans hgrown ((hf a).grows m₁)

theorem within {x y : Eval α} (record : Record) (h : Extends x y) :
    Extends (Eval.within record x) (Eval.within record y) := by
  refine ⟨.within lasting_grown record h.grows, ?_⟩
  intro m
  rcases h.agrees { m with stack := record :: m.stack } with hsame | ⟨m', hcut, hgrown⟩
  · left
    simp only [Eval.within, hsame]
  · right
    refine ⟨{ m' with stack := m'.stack.tail }, ?_, ?_⟩
    · simp only [Eval.within, hcut]
    · rw [Eval.after_within]
      exact hgrown

end Extends

/-! ## The evaluator -/

/-- The limits leave the same time, for the same reason. -/
structure Limits.SameTime (limits limits' : Limits) : Prop where
  budget : limits.budget = limits'.budget
  clock : limits.clock = limits'.clock

variable {limits limits' : Limits}

theorem Extends.congruence (htime : limits.SameTime limits') :
    Eval.Congruence limits limits' Extends where
  still := of_still
  bind := bind
  within := within
  tick := by
    intro span
    have htick : Eval.tick limits span = Eval.tick limits' span := by
      funext m
      rw [Eval.tick, Eval.tick, htime.clock, htime.budget]
    rw [htick]
    exact refl (.tick lasting_grown limits' span)
  assign := fun name v => refl (.assign lasting_grown name v)
  emit := fun v => refl (.emit lasting_grown v)
  clock := htime.clock

/-- Every evaluation extends to the one that has more frames. -/
theorem evaluator_extends (htime : limits.SameTime limits') {d d' : Nat} (hle : d ≤ d') :
    Eval.EvaluatorRelated limits limits' Extends d d' := by
  have hkeeps := evaluator_keeps lasting_grown limits' (d' - d)
  have hdeep : Eval.EvaluatorRelated limits limits' Extends 0 (d' - d) := {
    eval := fun e => by rw [Expr.eval]; exact .tooDeep (hkeeps.eval e)
    exec := fun s => by rw [Stmt.exec]; exact .tooDeep (hkeeps.exec s)
    call := fun span name args => by
      rw [callFunction]; exact .tooDeep (hkeeps.call span name args) }
  have h := (Extends.congruence htime).parametric.evaluator hdeep d
  rwa [Nat.add_sub_cancel' hle] at h

/-- A run is the same with more frames, or it runs out of them, in a state that has printed and
    counted no more than what the run with more frames leaves. -/
theorem run_extends (program : Program) (htime : limits.SameTime limits')
    (hframes : limits.frames ≤ limits'.frames) :
    program.run limits' = program.run limits ∨
      (program.run limits).halt = some .tooDeep ∧
        (program.run limits).machine.Grown (program.run limits').machine := by
  have hwork : Extends (program.work limits) (program.work limits') :=
    .within mainRecord ((evaluator_extends htime hframes).exec program.body)
  rcases hwork.agrees program.start with hsame | ⟨m, hcut, hgrown⟩
  · left
    cases hlong : program.work limits' program.start with
    | ok c m => rw [Program.run_of_ok hlong, Program.run_of_ok (hsame.trans hlong)]
    | error halt m => rw [Program.run_of_error hlong, Program.run_of_error (hsame.trans hlong)]
  · right
    rw [Program.run_machine limits', Program.run_of_error hcut]
    exact ⟨rfl, hgrown⟩

/-- A run that does not run out of frames is the same with more of them. -/
theorem run_of_more_frames (program : Program) (htime : limits.SameTime limits')
    (hframes : limits.frames ≤ limits'.frames)
    (hhalt : (program.run limits).halt ≠ some .tooDeep) :
    program.run limits = program.run limits' := by
  rcases run_extends program htime hframes with hsame | ⟨hdeep, -⟩
  · exact hsame.symm
  · exact absurd hdeep hhalt

end MiniLang
