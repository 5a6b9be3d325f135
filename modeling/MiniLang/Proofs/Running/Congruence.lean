/-
  What holds of two evaluations because it holds of every step of them.

  Two evaluations of one thing, which differ in the limits, in the frames or in the state they begin
  in, are built from the same steps.  So a relation between computations that is respected wherever
  the evaluator builds one from others holds between the evaluations as well.

  1. **Relations that are respected** — `Eval.Parametric limits limits' Rel`: the steps that the
     evaluator takes, and the ways in which it puts computations together.
  2. **The evaluator** — by induction on the smaller number of frames
     (`Eval.Parametric.evaluator`).  What an evaluation without any frames is related to is left to
     the one who uses it, because there the two need not be built alike.
  3. **Computations that change nothing** — `Eval.Still x`: whatever `x` ends in, the state that it
     leaves is the one it began in.
  4. **Congruences** — `Eval.Congruence limits limits' Rel`: a relation that every computation which
     changes nothing has to itself is respected if it is where something changes.

  A relation that looks at one of the two computations only is a property of evaluations.
-/
import MiniLang.Proofs.Budget.Begun

namespace MiniLang

namespace Eval

variable {α β : Type}

/-! ## Relations that are respected -/

/-- A relation that is respected by whatever the evaluator builds computations with. -/
structure Parametric (limits limits' : Limits) (Rel : {α : Type} → Eval α → Eval α → Prop) :
    Prop where
  pure : ∀ {α : Type} (a : α), Rel (Pure.pure a) (Pure.pure a)
  throw : ∀ {α : Type} (halt : Halt), Rel (MonadExcept.throw halt : Eval α) (MonadExcept.throw halt)
  fail : ∀ {α : Type} (fault : Fault) (span : Span), Rel (fail fault span : Eval α) (fail fault span)
  read : ∀ span name, Rel (read span name) (read span name)
  callee : ∀ span name args, Rel (callee span name args) (callee span name args)
  bind : ∀ {α β : Type} {x y : Eval α} {f g : α → Eval β}, Rel x y → (∀ a, Rel (f a) (g a)) →
    Rel (x >>= f) (y >>= g)
  within : ∀ {α : Type} {x y : Eval α} (record : Record), Rel x y →
    Rel (within record x) (within record y)
  tick : ∀ span, Rel (tick limits span) (tick limits' span)
  assign : ∀ name v, Rel (assign name v) (assign name v)
  emit : ∀ v, Rel (emit v) (emit v)
  /-- The loops are bounded alike. -/
  clock : limits.clock = limits'.clock

/-- Every evaluation with `d` frames is related to the one with `d'`. -/
structure EvaluatorRelated (limits limits' : Limits)
    (Rel : {α : Type} → Eval α → Eval α → Prop) (d d' : Nat) : Prop where
  eval : ∀ e : Expr, Rel (e.eval limits d) (e.eval limits' d')
  exec : ∀ s : Stmt, Rel (s.exec limits d) (s.exec limits' d')
  call : ∀ span name args,
    Rel (callFunction limits d span name args) (callFunction limits' d' span name args)

namespace Parametric

variable {limits limits' : Limits} {Rel : {α : Type} → Eval α → Eval α → Prop} {d d' : Nat}

/-- The computations are followed by a value. -/
theorem then_pure (hR : Parametric limits limits' Rel) {x y : Eval α} (h : Rel x y) (f : α → β) :
    Rel (x >>= fun a => Pure.pure (f a)) (y >>= fun a => Pure.pure (f a)) :=
  hR.bind h fun a => hR.pure (f a)

theorem operate (hR : Parametric limits limits' Rel) (span : Span) (op : Token.Kind) (l r : Int) :
    Rel (Eval.operate span op l r) (Eval.operate span op l r) := by
  unfold Eval.operate
  cases op.apply l r with
  | ok v => exact hR.pure v
  | error fault => exact hR.fail fault span

theorem each (hR : Parametric limits limits' Rel) {eval eval' : Expr → Eval Int}
    (h : ∀ e, Rel (eval e) (eval' e)) : ∀ es, Rel (Eval.each eval es) (Eval.each eval' es) := by
  intro es
  induction es with
  | nil => exact hR.pure []
  | cons e rest ih =>
    rw [Eval.each, Eval.each]
    apply hR.bind (h e)
    intro v
    exact hR.then_pure ih fun vs => v :: vs

theorem sequence (hR : Parametric limits limits' Rel) {exec exec' : Stmt → Eval Completion}
    (h : ∀ s, Rel (exec s) (exec' s)) :
    ∀ body, Rel (Eval.sequence exec body) (Eval.sequence exec' body) := by
  intro body
  induction body with
  | nil => exact hR.pure Completion.next
  | cons s rest ih =>
    rw [Eval.sequence, Eval.sequence]
    apply hR.bind (h s)
    intro completion
    cases completion with
    | next => exact ih
    | returned v => exact hR.pure (Completion.returned v)

theorem whileNonzero (hR : Parametric limits limits' Rel) {cond cond' : Eval Int}
    {body body' : Eval Completion} (hcond : Rel cond cond') (hbody : Rel body body') :
    ∀ n, Rel (Eval.whileNonzero cond body n) (Eval.whileNonzero cond' body' n) := by
  intro n
  induction n with
  | zero => exact hR.throw .unfinished
  | succ n ih =>
    rw [Eval.whileNonzero, Eval.whileNonzero]
    apply hR.bind hcond
    intro v
    by_cases hv : v = 0
    · simp only [hv, if_true]
      exact hR.pure Completion.next
    · simp only [hv, if_false]
      apply hR.bind hbody
      intro completion
      cases completion with
      | next => exact ih
      | returned v => exact hR.pure (Completion.returned v)

/-! ## The evaluator -/

theorem eval (hR : Parametric limits limits' Rel) (h : EvaluatorRelated limits limits' Rel d d')
    (e : Expr) : Rel (e.eval limits (d + 1)) (e.eval limits' (d' + 1)) := by
  cases e with
  | lit span v => exact hR.pure v
  | var span name => exact hR.read span name
  | stray span label => exact hR.fail _ span
  | call span name args => exact h.call span name args
  | binary span left op right =>
    rw [Expr.eval, Expr.eval]
    apply hR.bind (h.eval left)
    intro l
    exact hR.bind (h.eval right) fun r => hR.operate span op l r

theorem exec (hR : Parametric limits limits' Rel) (h : EvaluatorRelated limits limits' Rel d d')
    (s : Stmt) : Rel (s.exec limits (d + 1)) (s.exec limits' (d' + 1)) := by
  unfold Stmt.exec
  apply hR.bind (hR.tick s.span)
  intro _
  cases s with
  | block span body => exact hR.sequence h.exec body
  | expr span e => exact hR.then_pure (h.eval e) fun _ => Completion.next
  | assign span name value =>
    apply hR.bind (h.eval value)
    intro v
    exact hR.then_pure (hR.assign name v) fun _ => Completion.next
  | ifElse span cond yes no =>
    apply hR.bind (h.eval cond)
    intro v
    by_cases hv : v = 0
    · simp only [hv, if_true]
      cases no with
      | some s => exact h.exec s
      | none => exact hR.pure Completion.next
    · simp only [hv, if_false]
      exact h.exec yes
  | loop span cond body =>
    rw [hR.clock]
    exact hR.whileNonzero (h.eval cond) (h.exec body) _
  | ret span value =>
    cases value with
    | none => exact hR.pure (Completion.returned 0)
    | some e => exact hR.then_pure (h.eval e) Completion.returned
  | stray span label => exact hR.fail _ span

theorem call (hR : Parametric limits limits' Rel) (h : EvaluatorRelated limits limits' Rel d d')
    (span : Span) (name : String) (args : List Expr) :
    Rel (callFunction limits (d + 1) span name args)
      (callFunction limits' (d' + 1) span name args) := by
  unfold callFunction
  by_cases hname : name = printName
  · rw [if_pos hname, if_pos hname]
    rcases args with _ | ⟨e, _ | ⟨e', rest⟩⟩
    · exact hR.fail _ span
    · apply hR.bind (h.eval e)
      intro v
      exact hR.then_pure (hR.emit v) fun _ => 0
    · exact hR.fail _ span
  · rw [if_neg hname, if_neg hname]
    apply hR.bind (hR.callee span name args.length)
    intro f
    apply hR.bind (hR.each h.eval args)
    intro vs
    apply hR.bind (hR.within _ (h.exec f.body))
    intro completion
    cases completion with
    | next => exact hR.pure 0
    | returned v => exact hR.pure v

/-- By induction on the frames: if the evaluations without frames are related to those with `k` of
    them, then all are related to those with `k` more. -/
theorem evaluator (hR : Parametric limits limits' Rel) {k : Nat}
    (hdeep : EvaluatorRelated limits limits' Rel 0 k) :
    ∀ d, EvaluatorRelated limits limits' Rel d (d + k) := by
  intro d
  induction d with
  | zero =>
    rw [Nat.zero_add]
    exact hdeep
  | succ d ih =>
    rw [Nat.succ_add]
    exact { eval := hR.eval ih, exec := hR.exec ih, call := hR.call ih }

end Parametric

/-! ## Computations that change nothing -/

/-- The computation leaves the state as it is. -/
def Still (x : Eval α) : Prop := ∀ m, x.after m = m

theorem still_pure (a : α) : Still (pure a) := fun _ => rfl

theorem still_throw (halt : Halt) : Still (throw halt : Eval α) := fun _ => rfl

theorem still_fail (fault : Fault) (span : Span) : Still (fail fault span : Eval α) := fun _ => rfl

theorem still_read (span : Span) (name : String) : Still (read span name) := by
  intro m
  unfold after read
  cases m.read? name with
  | some v => rfl
  | none => rfl

theorem still_callee (span : Span) (name : String) (args : Nat) :
    Still (callee span name args) := by
  intro m
  rcases callee_cases span name args m with ⟨_, h⟩ | ⟨f, _, ⟨_, h⟩ | ⟨_, h⟩⟩
  · exact after_of_error h
  · exact after_of_ok h
  · exact after_of_error h

/-! ## Congruences -/

/-- A relation that is respected where something changes, and that whatever changes nothing has to
    itself. -/
structure Congruence (limits limits' : Limits) (Rel : {α : Type} → Eval α → Eval α → Prop) :
    Prop where
  still : ∀ {α : Type} {x : Eval α}, Still x → Rel x x
  bind : ∀ {α β : Type} {x y : Eval α} {f g : α → Eval β}, Rel x y → (∀ a, Rel (f a) (g a)) →
    Rel (x >>= f) (y >>= g)
  within : ∀ {α : Type} {x y : Eval α} (record : Record), Rel x y →
    Rel (within record x) (within record y)
  tick : ∀ span, Rel (tick limits span) (tick limits' span)
  assign : ∀ name v, Rel (assign name v) (assign name v)
  emit : ∀ v, Rel (emit v) (emit v)
  /-- The loops are bounded alike. -/
  clock : limits.clock = limits'.clock

theorem Congruence.parametric {limits limits' : Limits}
    {Rel : {α : Type} → Eval α → Eval α → Prop} (hR : Congruence limits limits' Rel) :
    Parametric limits limits' Rel where
  pure := fun a => hR.still (still_pure a)
  throw := fun halt => hR.still (still_throw halt)
  fail := fun fault span => hR.still (still_fail fault span)
  read := fun span name => hR.still (still_read span name)
  callee := fun span name args => hR.still (still_callee span name args)
  bind := hR.bind
  within := hR.within
  tick := hR.tick
  assign := hR.assign
  emit := hR.emit
  clock := hR.clock

end Eval

end MiniLang
