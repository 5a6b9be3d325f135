/-
  What holds between a state of a run and every later one.

  An evaluation changes the state in five ways only: it counts a step, assigns a name, prints a
  value, enters a call and leaves it.

  1. **Relations that last** — `Machine.Lasting R`: the relation `R` between an earlier state and
     a later one is respected by each of these changes, and by doing one after the other.
  2. **Computations that keep them** — `Eval.Keeps R x`: the state that `x` leaves, whichever way
     it ends, is related to the state it began in.
  3. **The evaluator** — keeping a relation that lasts is a congruence, so every evaluation keeps
     it (`evaluator_keeps`), by the one induction that no single relation has to repeat.
-/
import MiniLang.Proofs.Running.Congruence

namespace MiniLang

/-- A relation between an earlier state and a later one that no evaluation breaks. -/
structure Machine.Lasting (R : Machine → Machine → Prop) : Prop where
  refl : ∀ m, R m m
  trans : ∀ {m₁ m₂ m₃}, R m₁ m₂ → R m₂ m₃ → R m₁ m₃
  step : ∀ m, R m { m with steps := m.steps + 1 }
  assign : ∀ m name v, R m (m.assign name v)
  emit : ∀ m v, R m { m with printed := m.printed.push v }
  /-- What happens inside a call is framed by entering and leaving it. -/
  call : ∀ {m record m'}, R { m with stack := record :: m.stack } m' →
    R m { m' with stack := m'.stack.tail }

namespace Eval

/-- The computation relates the state it begins in to the one it leaves. -/
def Keeps {α : Type} (R : Machine → Machine → Prop) (x : Eval α) : Prop := ∀ m, R m (x.after m)

/-! ## Computations that keep what lasts -/

namespace Keeps

variable {α β : Type} {R : Machine → Machine → Prop}

theorem of_still {x : Eval α} (hR : Machine.Lasting R) (hx : Still x) : Keeps R x := by
  intro m
  rw [hx m]
  exact hR.refl m

/-- Where `x` fails nothing follows it, and otherwise `f` goes on from the state it leaves. -/
theorem bind {x : Eval α} {f : α → Eval β} (hR : Machine.Lasting R) (hx : Keeps R x)
    (hf : ∀ a, Keeps R (f a)) : Keeps R (x >>= f) := by
  intro m
  have hkept := hx m
  cases h : x m with
  | error halt m' =>
    rw [after_bind_of_error h]
    exact hkept
  | ok a m' =>
    rw [after_of_ok h] at hkept
    rw [after_bind_of_ok h]
    exact hR.trans hkept (hf a m')

theorem tick (hR : Machine.Lasting R) (limits : Limits) (span : Span) :
    Keeps R (Eval.tick limits span) := by
  intro m
  rw [after_tick]
  exact hR.step m

theorem assign (hR : Machine.Lasting R) (name : String) (v : Int) :
    Keeps R (Eval.assign name v) := fun m => hR.assign m name v

theorem emit (hR : Machine.Lasting R) (v : Int) : Keeps R (Eval.emit v) := fun m => hR.emit m v

theorem within {x : Eval α} (hR : Machine.Lasting R) (record : Record) (hx : Keeps R x) :
    Keeps R (Eval.within record x) := by
  intro m
  rw [after_within]
  exact hR.call (hx { m with stack := record :: m.stack })

theorem tooDeep (hR : Machine.Lasting R) : Keeps R (Eval.tooDeep : Eval α) :=
  of_still hR (still_throw .tooDeep)

theorem congruence (hR : Machine.Lasting R) (limits : Limits) :
    Congruence limits limits fun x _ => Keeps R x where
  still := of_still hR
  bind := bind hR
  within := within hR
  tick := tick hR limits
  assign := assign hR
  emit := emit hR
  clock := rfl

theorem each {eval : Expr → Eval Int} (hR : Machine.Lasting R) (h : ∀ e, Keeps R (eval e))
    (es : List Expr) : Keeps R (Eval.each eval es) := by
  have hsteps := (congruence hR { budget := none, patience := 0, frames := 0 }).parametric
  exact @Parametric.each _ _ _ hsteps eval eval h es

end Keeps

end Eval

/-! ## The evaluator -/

open Eval

/-- With so many frames, every evaluation keeps the relation. -/
structure EvaluatorKeeps (R : Machine → Machine → Prop) (limits : Limits) (d : Nat) : Prop where
  eval : ∀ e : Expr, Keeps R (e.eval limits d)
  exec : ∀ s : Stmt, Keeps R (s.exec limits d)
  call : ∀ span name args, Keeps R (callFunction limits d span name args)

/-- No evaluation breaks a relation that lasts. -/
theorem evaluator_keeps {R : Machine → Machine → Prop} (hR : Machine.Lasting R) (limits : Limits)
    (d : Nat) : EvaluatorKeeps R limits d := by
  have hdeep : EvaluatorRelated limits limits (fun x _ => Keeps R x) 0 0 := {
    eval := fun e => by rw [Expr.eval]; exact .tooDeep hR
    exec := fun s => by rw [Stmt.exec]; exact .tooDeep hR
    call := fun span name args => by rw [callFunction]; exact .tooDeep hR }
  have h := (Keeps.congruence hR limits).parametric.evaluator hdeep d
  exact { eval := h.eval, exec := h.exec, call := h.call }

end MiniLang
