/-
  Rewriting a program without changing what it does.

  1. **Rewrites** — `Stmt.Reshape` has one rule for each way to write a statement in another form: a
     run of statements in a block of its own, braces around a statement, an empty `else`, and a loop
     with its first round in front.  `Program.Reshaped` applies one of them at one place, in the body
     of the program or of a function.
  2. **Outcomes** — `Program.EndsWith`: without a budget, and with frames and patience enough, the
     run ends with some output, globals and failure.  A run that does not end has no such outcome.
  3. **Attaining** — `Attains V x Y`: where `x` comes to an end of its own, so does `Y` with enough
     patience and frames, and alike.  How many steps and frames either of them takes does not matter,
     so a step or a frame more on one side changes nothing (`Attains.tick_left`, `Attains.tick_right`
     and `Attains.deeper`), and attaining is a simulation.
  4. **The rules** — both sides of every rule attain each other.
-/
import Mathlib.Logic.Relation
import MiniLang.Proofs.Bare
import MiniLang.Proofs.Running.Simulation

namespace MiniLang

/-! ## Rewrites -/

/-- The ways to write a statement in another form.  New nodes stand anywhere. -/
inductive Stmt.Reshape : Stmt → Stmt → Prop
  /-- A run of the statements of a block goes into a block of its own. -/
  | wrap (span inner : Span) (before run behind : List Stmt) :
      Reshape (.block span (before ++ (run ++ behind)))
        (.block span (before ++ .block inner run :: behind))
  /-- A statement goes into a block. -/
  | brace (outer : Span) (s : Stmt) : Reshape s (.block outer [s])
  /-- An `if` without an `else` gets one that does nothing. -/
  | addElse (span inner : Span) (cond : Expr) (yes : Stmt) :
      Reshape (.ifElse span cond yes none) (.ifElse span cond yes (some (.block inner [])))
  /-- The first round of a loop goes in front of it. -/
  | unroll (span outer inner again : Span) (cond : Expr) (body : Stmt) :
      Reshape (.loop span cond body)
        (.ifElse outer cond (.block inner [body, .loop again cond body]) none)

/-- A rewrite at one place inside a statement. -/
inductive Stmt.Reshaped : Stmt → Stmt → Prop
  | here {s s'} : Stmt.Reshape s s' → Reshaped s s'
  | block (span : Span) (before behind : List Stmt) {s s'} : Reshaped s s' →
      Reshaped (.block span (before ++ s :: behind)) (.block span (before ++ s' :: behind))
  | yes (span : Span) (cond : Expr) (no : Option Stmt) {yes yes'} : Reshaped yes yes' →
      Reshaped (.ifElse span cond yes no) (.ifElse span cond yes' no)
  | no (span : Span) (cond : Expr) (yes : Stmt) {no no'} : Reshaped no no' →
      Reshaped (.ifElse span cond yes (some no)) (.ifElse span cond yes (some no'))
  | body (span : Span) (cond : Expr) {body body'} : Reshaped body body' →
      Reshaped (.loop span cond body) (.loop span cond body')

/-- A rewrite at one place in a program. -/
inductive Program.Reshaped : Program → Program → Prop
  | body (span : Span) (functions : List FunctionDef) {body body'} : body.Reshaped body' →
      Reshaped ⟨span, functions, body⟩ ⟨span, functions, body'⟩
  | function (span : Span) (before : List FunctionDef) (f : FunctionDef)
      (behind : List FunctionDef) (main : Stmt) {body'} : f.body.Reshaped body' →
      Reshaped ⟨span, before ++ f :: behind, main⟩
        ⟨span, before ++ { f with body := body' } :: behind, main⟩

/-- The same statement, or one rewrite apart, in whichever direction. -/
def Stmt.Near (s s' : Stmt) : Prop := s = s' ∨ s.Reshaped s' ∨ s'.Reshaped s

theorem Stmt.Near.refl (s : Stmt) : s.Near s := .inl rfl

/-- Two rows that differ in one place are related if the entries there are. -/
theorem forall₂_of_one {α : Type} {R : α → α → Prop} (hR : ∀ a, R a a) {a a' : α} (ha : R a a')
    (before behind : List α) :
    List.Forall₂ R (before ++ a :: behind) (before ++ a' :: behind) := by
  have hsame : ∀ as : List α, List.Forall₂ R as as := fun as => List.forall₂_same.mpr fun a _ => hR a
  exact List.rel_append (hsame before) (.cons ha (hsame behind))

/-- A rewrite at the top, or inside one of the parts. -/
theorem Stmt.Reshaped.cases_top {s s' : Stmt} (h : s.Reshaped s') :
    s.Reshape s' ∨ (s.Layer Near s' ∧ s'.Layer Near s) := by
  have hnear : ∀ {t t' : Stmt}, t.Reshaped t' → t.Near t' ∧ t'.Near t := fun ht =>
    ⟨.inr (.inl ht), .inr (.inr ht)⟩
  cases h with
  | here h => exact .inl h
  | block span before behind h =>
    exact .inr ⟨.block (forall₂_of_one .refl (hnear h).1 before behind),
      .block (forall₂_of_one .refl (hnear h).2 before behind)⟩
  | yes span cond no h =>
    cases no with
    | none => exact .inr ⟨.ifThen (hnear h).1, .ifThen (hnear h).2⟩
    | some no => exact .inr ⟨.ifElse (hnear h).1 (.refl no), .ifElse (hnear h).2 (.refl no)⟩
  | no span cond yes h =>
    exact .inr ⟨.ifElse (.refl yes) (hnear h).1, .ifElse (.refl yes) (hnear h).2⟩
  | body span cond h => exact .inr ⟨.loop (hnear h).1, .loop (hnear h).2⟩

theorem Program.Alike.refl {S : Stmt → Stmt → Prop} (hS : ∀ s, S s s) (p : Program) : p.Alike S p :=
  ⟨rfl, List.forall₂_same.mpr fun f _ => ⟨rfl, rfl, rfl, hS f.body⟩, hS p.body⟩

theorem Program.Reshaped.alike {p p' : Program} (h : p.Reshaped p') :
    p.Alike Stmt.Near p' ∧ p'.Alike Stmt.Near p := by
  have hfunction : ∀ f : FunctionDef, f.Alike Stmt.Near f := fun f => ⟨rfl, rfl, rfl, .refl f.body⟩
  have hfunctions : ∀ fs : List FunctionDef, List.Forall₂ (FunctionDef.Alike Stmt.Near) fs fs :=
    fun fs => List.forall₂_same.mpr fun f _ => hfunction f
  cases h with
  | body span functions h =>
    exact ⟨⟨rfl, hfunctions functions, .inr (.inl h)⟩, ⟨rfl, hfunctions functions, .inr (.inr h)⟩⟩
  | @function span before f behind main body' h =>
    have hf : f.Alike Stmt.Near { f with body := body' } := ⟨rfl, rfl, rfl, .inr (.inl h)⟩
    have hf' : FunctionDef.Alike Stmt.Near { f with body := body' } f :=
      ⟨rfl, rfl, rfl, .inr (.inr h)⟩
    exact ⟨⟨rfl, forall₂_of_one hfunction hf before behind, .refl main⟩,
      ⟨rfl, forall₂_of_one hfunction hf' before behind, .refl main⟩⟩

/-! ## Outcomes -/

/-- The program failed; the evaluation was not cut short. -/
inductive Halt.IsFailure : Halt → Prop
  | failed (fault : Fault) (span : Span) (calls : List String) : IsFailure (.failed fault span calls)

/-- Without a budget, and with patience and frames enough, the run ends in this way. -/
def Program.EndsWith (p : Program) (output : String) (globals : Table Int) (halt : Option Halt) :
    Prop :=
  (∀ h ∈ halt, h.IsFailure) ∧ ∃ enough, ∀ limits : Limits, limits.budget = none →
    enough ≤ limits.patience → enough ≤ limits.frames →
    (p.run limits).output = output ∧ (p.run limits).globals = globals ∧ (p.run limits).halt = halt

/-- The computation came to an end of its own. -/
inductive Told {α : Type} : EStateM.Result Halt Machine α → Prop
  | ok (a : α) (m : Machine) : Told (.ok a m)
  | error {halt : Halt} (m : Machine) : halt.IsFailure → Told (.error halt m)

/-! ## Attaining -/

/-- From states alike, where `x` comes to an end of its own, so does the family with enough patience
    and frames, and alike. -/
def Attains {α : Type} (V : α → α → Prop) (x : Eval α) (Y : Family α) : Prop :=
  ∀ m m', m.Alike Stmt.Near m' → Told (x m) →
    ∃ r enough, EndAlike Stmt.Near V (x m) r ∧
      ∀ (l : Limits) k, l.budget = none → enough ≤ l.patience → enough ≤ k → Y l k m' = r

namespace Attains

variable {α β : Type} {V : α → α → Prop} {W : β → β → Prop}

theorem plain {x y : Eval α} (h : Plain Stmt.Near V x y) : Attains V x fun _ _ => y :=
  fun _ m' hm _ => ⟨y m', 0, h.ends hm, fun _ _ _ _ _ => rfl⟩

theorem of_error {x : Eval α} {Y : Family α} {halt : Halt} (hx : ∀ m, ∃ m', x m = .error halt m')
    (hhalt : ¬ halt.IsFailure) : Attains V x Y := by
  intro m m' _ htold
  obtain ⟨m₁, hm₁⟩ := hx m
  rw [hm₁] at htold
  cases htold with
  | error _ h => exact absurd h hhalt

theorem tooDeep {Y : Family α} : Attains V Eval.tooDeep Y :=
  of_error (fun m => ⟨m, rfl⟩) nofun

/-- What the family does with little patience or few frames does not matter. -/
theorem congr {x : Eval α} {Y Z : Family α} (h : Attains V x Y)
    (hsame : ∃ enough, ∀ (l : Limits) k, l.budget = none → enough ≤ l.patience → enough ≤ k →
      Y l k = Z l k) : Attains V x Z := by
  intro m m' hm htold
  obtain ⟨r, n, hr, hY⟩ := h m m' hm htold
  obtain ⟨n', hsame⟩ := hsame
  refine ⟨r, max n n', hr, ?_⟩
  intro l k hl hpatience hk
  rw [← hsame l k hl (by omega) (by omega)]
  exact hY l k hl (by omega) (by omega)

theorem bind {x : Eval α} {Y : Family α} {f : α → Eval β} {F : α → Family β} (hx : Attains V x Y)
    (hf : ∀ a a', V a a' → Attains W (f a) (F a')) :
    Attains W (x >>= f) fun l k => Y l k >>= fun a => F a l k := by
  intro m m' hm htold
  cases h : x m with
  | error halt m₁ =>
    rw [Eval.bind_of_error h] at htold ⊢
    have hxtold : Told (x m) := by
      rw [h]
      cases htold with
      | error _ hhalt => exact .error m₁ hhalt
    obtain ⟨r, n, hr, hY⟩ := hx m m' hm hxtold
    rw [h] at hr
    cases hr with
    | @error _ _ m₁' hm₁ =>
      exact ⟨.error halt m₁', n, .error hm₁, fun l k hl hpatience hk =>
        Eval.bind_of_error (hY l k hl hpatience hk)⟩
  | ok a m₁ =>
    rw [Eval.bind_of_ok h] at htold ⊢
    obtain ⟨r, n, hr, hY⟩ := hx m m' hm (by rw [h]; exact .ok a m₁)
    rw [h] at hr
    cases hr with
    | @ok _ a' _ m₁' hm₁ ha =>
      obtain ⟨r', n', hr', hF⟩ := hf a a' ha m₁ m₁' hm₁ htold
      refine ⟨r', max n n', hr', ?_⟩
      intro l k hl hpatience hk
      exact (Eval.bind_of_ok (hY l k hl (by omega) (by omega))).trans
        (hF l k hl (by omega) (by omega))

theorem composable : Composable Stmt.Near fun V x Y => Attains V x Y := ⟨plain, bind⟩

theorem within {x : Eval α} {Y : Family α} (record : Record) (h : Attains V x Y) :
    Attains V (Eval.within record x) fun l k => Eval.within record (Y l k) := by
  intro m m' hm htold
  have hinner : Told (x { m with stack := record :: m.stack }) := by
    unfold Eval.within at htold
    generalize x { m with stack := record :: m.stack } = r at htold
    cases r with
    | ok a m₁ => exact .ok a m₁
    | error halt m₁ => cases htold with | error _ hhalt => exact .error m₁ hhalt
  obtain ⟨r, n, hr, hY⟩ := h _ _ (hm.enter record) hinner
  refine ⟨Eval.within record (fun _ => r) m', n, .within hr, ?_⟩
  intro l k hl hpatience hk
  simp only [Eval.within, hY l k hl hpatience hk]

/-- Without a budget a step either goes through or cuts the computation short. -/
theorem tick_cases {limits : Limits} (hbudget : limits.budget = none) (span : Span) (m : Machine) :
    (m.steps + 1 ≤ limits.patience ∧
      Eval.tick limits span m = .ok () { m with steps := m.steps + 1 }) ∨
    Eval.tick limits span m = .error .unfinished { m with steps := m.steps + 1 } := by
  have hclock : limits.clock = limits.patience := by rw [Limits.clock, hbudget]
  simp only [Eval.tick, hclock, hbudget, Option.isSome_none]
  by_cases h : m.steps + 1 ≤ limits.patience
  · left
    exact ⟨h, by simp only [h, if_true]⟩
  · right
    simp only [h, if_false, Bool.false_eq_true]

theorem tick_of_le {l : Limits} (hl : l.budget = none) (span : Span) {m : Machine}
    (h : m.steps + 1 ≤ l.patience) :
    Eval.tick l span m = .ok () { m with steps := m.steps + 1 } := by
  have hclock : l.clock = l.patience := by rw [Limits.clock, hl]
  exact Eval.tick_of_lt (by rwa [hclock]) span

/-- A step more on the left. -/
theorem tick_left {limits : Limits} (hbudget : limits.budget = none) (span : Span) {x : Eval α}
    {Y : Family α} (h : Attains V x Y) :
    Attains V (Eval.tick limits span >>= fun _ => x) Y := by
  intro m m' hm htold
  rcases tick_cases hbudget span m with ⟨-, htick⟩ | htick
  · rw [Eval.bind_of_ok htick] at htold ⊢
    exact h _ m' (hm.steps _ m'.steps) htold
  · rw [Eval.bind_of_error htick] at htold
    cases htold with
    | error _ hhalt => cases hhalt

/-- A step more on the right. -/
theorem tick_right (span : Span) {x : Eval α} {Y : Family α} (h : Attains V x Y) :
    Attains V x fun l k => Eval.tick l span >>= fun _ => Y l k := by
  intro m m' hm htold
  obtain ⟨r, n, hr, hY⟩ := h m _ (hm.steps m.steps (m'.steps + 1)) htold
  refine ⟨r, max n (m'.steps + 1), hr, ?_⟩
  intro l k hl hpatience hk
  exact (Eval.bind_of_ok (tick_of_le hl span (by omega))).trans (hY l k hl (by omega) (by omega))

theorem tick {limits : Limits} (hbudget : limits.budget = none) (span : Span) :
    Attains Eq (Eval.tick limits span) fun l _ => Eval.tick l span := by
  intro m m' hm htold
  rcases tick_cases hbudget span m with ⟨-, htick⟩ | htick
  · rw [htick]
    exact ⟨_, m'.steps + 1, .ok (hm.steps _ _) rfl, fun l k hl hpatience _ =>
      tick_of_le hl span hpatience⟩
  · rw [htick] at htold
    cases htold with
    | error _ hhalt => cases hhalt

/-- A frame more on the right. -/
theorem deeper {x : Eval α} {Y : Family α} (h : Attains V x fun l k => Y l (k + 1)) :
    Attains V x Y := by
  intro m m' hm htold
  obtain ⟨r, n, hr, hY⟩ := h m m' hm htold
  refine ⟨r, n + 1, hr, ?_⟩
  intro l k hl hpatience hk
  obtain ⟨k, rfl⟩ : ∃ j, k = j + 1 := ⟨k - 1, by omega⟩
  exact hY l k hl (by omega) (by omega)

theorem next : Attains Eq (pure Completion.next) fun _ _ => pure Completion.next :=
  plain (.pure rfl)

/-- Loops that may do more and more rounds with more and more patience: by induction on the rounds
    on the left, with any number of them fewer on the right. -/
theorem whileNonzero {cond : Eval Int} {Cond : Family Int} {body : Eval Completion}
    {Body : Family Completion} (hcond : Attains Eq cond Cond) (hbody : Attains Eq body Body) :
    ∀ (n : Nat) (rounds : Limits → Nat),
      (∃ fewer, ∀ l : Limits, l.budget = none → l.patience ≤ rounds l + fewer) →
      Attains Eq (Eval.whileNonzero cond body n) fun l k =>
        Eval.whileNonzero (Cond l k) (Body l k) (rounds l) := by
  intro n
  induction n with
  | zero => exact fun _ _ => of_error (fun m => ⟨m, rfl⟩) nofun
  | succ n ih =>
    rintro rounds ⟨fewer, hrounds⟩
    have hnext := ih (fun l => rounds l - 1) ⟨fewer + 1, fun l hl => by have := hrounds l hl; omega⟩
    have hround := composable.branch hcond next (composable.andThen hbody hnext)
    refine congr hround ⟨fewer + 1, ?_⟩
    intro l k hl hpatience _
    obtain ⟨j, hj⟩ : ∃ j, rounds l = j + 1 := ⟨rounds l - 1, by have := hrounds l hl; omega⟩
    rw [hj]
    rfl

theorem simulation {limits : Limits} (hbudget : limits.budget = none) :
    Simulation Stmt.Near limits fun _ V x Y => Attains V x Y where
  plain := plain
  bind := bind
  within := within
  tick := tick hbudget
  loop := by
    intro d cond Cond body Body hcond hbody
    refine whileNonzero hcond hbody _ (fun l => l.clock + 1) ⟨0, ?_⟩
    intro l hl
    rw [Limits.clock, hl]
    exact Nat.le_succ _
  deeper := deeper
  deepest := fun _ => tooDeep

/-! ## Statements on one side -/

section

variable {limits : Limits} {x : Eval Completion} {X : Family Completion}

/-- A block on the left is its statements, with one frame less. -/
theorem block_left (hbudget : limits.budget = none) (span : Span) (body : List Stmt) {d : Nat}
    (h : ∀ d' < d, Attains Eq (Eval.sequence (Stmt.exec limits d') body) X) :
    Attains Eq ((Stmt.block span body).exec limits d) X := by
  cases d with
  | zero => exact tooDeep
  | succ d => exact tick_left hbudget span (h d (Nat.lt_succ_self d))

theorem block_right (span : Span) (body : List Stmt)
    (h : Attains Eq x fun l k => Eval.sequence (Stmt.exec l k) body) :
    Attains Eq x fun l k => (Stmt.block span body).exec l k := deeper (tick_right span h)

/-- A loop on the left is its rounds, with one frame less. -/
theorem loop_left (hbudget : limits.budget = none) (span : Span) (cond : Expr) (body : Stmt)
    {d : Nat} (h : ∀ d' < d, Attains Eq (Eval.whileNonzero (cond.eval limits d')
      (body.exec limits d') (limits.clock + 1)) X) :
    Attains Eq ((Stmt.loop span cond body).exec limits d) X := by
  cases d with
  | zero => exact tooDeep
  | succ d => exact tick_left hbudget span (h d (Nat.lt_succ_self d))

theorem loop_right (span : Span) (cond : Expr) (body : Stmt)
    (h : Attains Eq x fun l k =>
      Eval.whileNonzero (cond.eval l k) (body.exec l k) (l.clock + 1)) :
    Attains Eq x fun l k => (Stmt.loop span cond body).exec l k := deeper (tick_right span h)

/-- A row of one statement on the right is that statement. -/
theorem single_right {s : Stmt} (h : Attains Eq x fun l k => s.exec l k) :
    Attains Eq x fun l k => Eval.sequence (Stmt.exec l k) [s] :=
  congr h ⟨0, fun l k _ _ _ => (Eval.sequence_single (Stmt.exec l k) s).symm⟩

end

end Attains

/-! ## The rules -/

section Rules

/-- With `d` frames on the left, everything attains what is near to it. -/
abbrev EvaluatorAttains (limits : Limits) (d : Nat) : Prop :=
  EvaluatorSimulates Stmt.Near limits (fun _ V x Y => Attains V x Y) d

open Attains

variable {limits : Limits} {d : Nat} (hbudget : limits.budget = none)
  (hbelow : ∀ d' ≤ d, EvaluatorAttains limits d')

include hbudget hbelow

theorem sequence_attains {d' : Nat} (hd' : d' ≤ d) (body : List Stmt) :
    Attains Eq (Eval.sequence (Stmt.exec limits d') body) fun l k =>
      Eval.sequence (Stmt.exec l k) body :=
  (simulation hbudget).sequence (hbelow d' hd') (List.forall₂_same.mpr fun s _ => .refl s)

theorem wrap_attains (span inner : Span) (before run behind : List Stmt) :
    (Attains Eq ((Stmt.block span (before ++ (run ++ behind))).exec limits (d + 1)) fun l k =>
      (Stmt.block span (before ++ .block inner run :: behind)).exec l k) ∧
    Attains Eq ((Stmt.block span (before ++ .block inner run :: behind)).exec limits (d + 1))
      fun l k => (Stmt.block span (before ++ (run ++ behind))).exec l k := by
  have hrow : ∀ {d'}, d' ≤ d → ∀ body, Attains Eq (Eval.sequence (Stmt.exec limits d') body)
      fun l k => Eval.sequence (Stmt.exec l k) body := sequence_attains hbudget hbelow
  constructor
  · refine block_left hbudget span _ fun d' hd' => block_right span _ ?_
    have hle : d' ≤ d := Nat.le_of_lt_succ hd'
    simp only [Eval.sequence_append, Eval.sequence_cons]
    exact composable.andThen (hrow hle before)
      (composable.andThen (block_right inner run (hrow hle run)) (hrow hle behind))
  · refine block_left hbudget span _ fun d' hd' => block_right span _ ?_
    have hle : d' ≤ d := Nat.le_of_lt_succ hd'
    simp only [Eval.sequence_append, Eval.sequence_cons]
    refine composable.andThen (hrow hle before) (composable.andThen ?_ (hrow hle behind))
    exact block_left hbudget inner run fun d'' hd'' => hrow (by omega) run

theorem brace_attains (outer : Span) (s : Stmt) :
    (Attains Eq (s.exec limits (d + 1)) fun l k => (Stmt.block outer [s]).exec l k) ∧
    Attains Eq ((Stmt.block outer [s]).exec limits (d + 1)) fun l k => s.exec l k := by
  constructor
  · refine block_right outer [s] (single_right ?_)
    exact (simulation hbudget).exec_layer (hbelow d (Nat.le_refl d)) (.refl Stmt.Near.refl s)
  · refine block_left hbudget outer [s] fun d' hd' => ?_
    rw [Eval.sequence_single]
    exact (hbelow d' (Nat.le_of_lt_succ hd')).exec s s (.refl s)

theorem addElse_attains (span inner : Span) (cond : Expr) (yes : Stmt) :
    (Attains Eq ((Stmt.ifElse span cond yes none).exec limits (d + 1)) fun l k =>
      (Stmt.ifElse span cond yes (some (.block inner []))).exec l k) ∧
    Attains Eq ((Stmt.ifElse span cond yes (some (.block inner []))).exec limits (d + 1))
      fun l k => (Stmt.ifElse span cond yes none).exec l k := by
  have hd := hbelow d (Nat.le_refl d)
  have hcond := hd.eval cond
  have hyes := hd.exec yes yes (.refl yes)
  constructor
  · refine tick_left hbudget span (deeper (tick_right span ?_))
    exact composable.branch hcond (block_right inner [] next) hyes
  · refine tick_left hbudget span (deeper (tick_right span ?_))
    exact composable.branch hcond (block_left hbudget inner [] fun d' _ => next) hyes

theorem unroll_attains (span outer inner again : Span) (cond : Expr) (body : Stmt) :
    (Attains Eq ((Stmt.loop span cond body).exec limits (d + 1)) fun l k =>
      (Stmt.ifElse outer cond (.block inner [body, .loop again cond body]) none).exec l k) ∧
    Attains Eq ((Stmt.ifElse outer cond (.block inner [body, .loop again cond body]) none).exec
      limits (d + 1)) fun l k => (Stmt.loop span cond body).exec l k := by
  have hcond : ∀ d' ≤ d, Attains Eq (cond.eval limits d') fun l k => cond.eval l k :=
    fun d' hd' => (hbelow d' hd').eval cond
  have hbody : ∀ d' ≤ d, Attains Eq (body.exec limits d') fun l k => body.exec l k :=
    fun d' hd' => (hbelow d' hd').exec body body (.refl body)
  have hclock : ∀ l : Limits, l.budget = none → l.patience ≤ l.clock + 0 := by
    intro l hl
    rw [Limits.clock, hl]
    exact Nat.le_refl _
  have hself := Nat.le_refl d
  constructor
  · refine tick_left hbudget span (deeper (tick_right outer ?_))
    refine composable.branch (hcond d hself) next (block_right inner _ ?_)
    refine composable.andThen (hbody d hself) (single_right (loop_right again cond body ?_))
    exact whileNonzero (hcond d hself) (hbody d hself) _ (fun l => l.clock + 1)
      ⟨0, fun l hl => Nat.le_succ_of_le (hclock l hl)⟩
  · refine tick_left hbudget outer (deeper (tick_right span ?_))
    -- the first round is the one in front, and the loop on the right has one round less to do
    refine composable.branch (hcond d hself) next (block_left hbudget inner _ fun d' hd' => ?_)
    refine composable.andThen (hbody d' (by omega)) ?_
    rw [Eval.sequence_single]
    refine loop_left hbudget again cond body fun d'' hd'' => ?_
    exact whileNonzero (hcond d'' (by omega)) (hbody d'' (by omega)) _ (fun l => l.clock)
      ⟨0, hclock⟩

/-- Both sides of a rule attain each other. -/
theorem reshape_attains {s s' : Stmt} (h : s.Reshape s') :
    (Attains Eq (s.exec limits (d + 1)) fun l k => s'.exec l k) ∧
    Attains Eq (s'.exec limits (d + 1)) fun l k => s.exec l k := by
  cases h with
  | wrap span inner before run behind =>
    exact wrap_attains hbudget hbelow span inner before run behind
  | brace outer s => exact brace_attains hbudget hbelow outer s
  | addElse span inner cond yes => exact addElse_attains hbudget hbelow span inner cond yes
  | unroll span outer inner again cond body =>
    exact unroll_attains hbudget hbelow span outer inner again cond body

end Rules

theorem evaluator_attains {limits : Limits} (hbudget : limits.budget = none) :
    ∀ d, EvaluatorAttains limits d := by
  refine (Attains.simulation hbudget).evaluator ?_
  intro d hbelow s s' hs
  rcases hs with rfl | h | h
  · exact .inl (.refl Stmt.Near.refl s)
  · rcases h.cases_top with hrule | ⟨hlayer, -⟩
    · exact .inr (reshape_attains hbudget hbelow hrule).1
    · exact .inl hlayer
  · rcases h.cases_top with hrule | ⟨-, hlayer⟩
    · exact .inr (reshape_attains hbudget hbelow hrule).2
    · exact .inl hlayer

/-! ## Whole runs -/

namespace Program

/-- A run that ends, under whatever limits without a budget, tells how a program alike ends. -/
theorem endsWith_of_run {p p' : Program} (h : p.Alike Stmt.Near p') {limits : Limits}
    (hbudget : limits.budget = none) (hends : ∀ halt ∈ (p.run limits).halt, halt.IsFailure) :
    p'.EndsWith (p.run limits).output (p.run limits).globals (p.run limits).halt := by
  have hwork : Attains Eq (p.work limits) fun l k => Eval.within mainRecord (p'.body.exec l k) :=
    (Attains.simulation hbudget).work h (evaluator_attains hbudget limits.frames)
  refine ⟨hends, ?_⟩
  have htold : Told (p.work limits p.start) := by
    cases hx : p.work limits p.start with
    | ok c m => exact .ok c m
    | error halt m =>
      rw [run_of_error hx] at hends
      exact .error m (hends halt rfl)
  obtain ⟨r, enough, hr, hall⟩ := hwork _ _ h.start htold
  refine ⟨enough, fun l hl hpatience hframes => ?_⟩
  have hr' : p'.work l p'.start = r := hall l l.frames hl hpatience hframes
  rw [← hr'] at hr
  obtain ⟨houtput, hglobals, hhalt⟩ := hr.run
  exact ⟨houtput.symm, hglobals.symm, hhalt.symm⟩

/-- One run that ends is enough to tell how a program ends. -/
theorem endsWith_iff {p : Program} {output : String} {globals : Table Int} {halt : Option Halt} :
    p.EndsWith output globals halt ↔ (∀ h ∈ halt, h.IsFailure) ∧ ∃ limits : Limits,
      limits.budget = none ∧ (p.run limits).output = output ∧
      (p.run limits).globals = globals ∧ (p.run limits).halt = halt := by
  constructor
  · rintro ⟨hfailure, enough, h⟩
    exact ⟨hfailure, ⟨none, enough, enough⟩, rfl, h _ rfl (Nat.le_refl _) (Nat.le_refl _)⟩
  · rintro ⟨hfailure, limits, hbudget, rfl, rfl, rfl⟩
    exact endsWith_of_run (.refl Stmt.Near.refl p) hbudget hfailure

theorem EndsWith.of_alike {p p' : Program} (h : p.Alike Stmt.Near p') {output : String}
    {globals : Table Int} {halt : Option Halt} (hends : p.EndsWith output globals halt) :
    p'.EndsWith output globals halt := by
  obtain ⟨hfailure, limits, hbudget, rfl, rfl, rfl⟩ := endsWith_iff.mp hends
  exact endsWith_of_run h hbudget hfailure

end Program

/-- **Rewriting a program does not change what it does.**  However often, wherever and in whichever
    direction it is rewritten, it ends if it ended before, with the same output and globals and the
    same failure, at the same place inside the same calls. -/
theorem reshaping_keeps_outcome {p p' : Program} (h : Relation.EqvGen Program.Reshaped p p')
    (output : String) (globals : Table Int) (halt : Option Halt) :
    p.EndsWith output globals halt ↔ p'.EndsWith output globals halt := by
  induction h with
  | rel p p' h => exact ⟨.of_alike h.alike.1, .of_alike h.alike.2⟩
  | refl p => exact Iff.rfl
  | symm p p' _ ih => exact ih.symm
  | trans p q p' _ _ ih ih' => exact ih.trans ih'

/-- `func f(n) { while (n) n = n - 1; return 1 / n; } print(1); print(f(2));` -/
def plainly : Program :=
  { span := .nowhere
    functions := [⟨.nowhere, "f", ["n"], .block .nowhere [
      .loop .nowhere (.var .nowhere "n")
        (.assign .nowhere "n" (.binary .nowhere (.var .nowhere "n") .minus (.lit .nowhere 1))),
      .ret .nowhere (some (.binary .nowhere (.lit .nowhere 1) .slash (.var .nowhere "n")))]⟩]
    body := .block .nowhere [
      .expr .nowhere (.call .nowhere printName [.lit .nowhere 1]),
      .expr .nowhere (.call .nowhere printName [.call .nowhere "f" [.lit .nowhere 2]])] }

/-- The same with the first round of the loop in front of it, in the composable.branch of an `if` with an empty
    `else`, and with the last statement in braces. -/
def roundabout : Program :=
  { span := .nowhere
    functions := [⟨.nowhere, "f", ["n"], .block .nowhere [
      .ifElse .nowhere (.var .nowhere "n")
        (.block .nowhere [
          .assign .nowhere "n" (.binary .nowhere (.var .nowhere "n") .minus (.lit .nowhere 1)),
          .loop .nowhere (.var .nowhere "n")
            (.assign .nowhere "n" (.binary .nowhere (.var .nowhere "n") .minus (.lit .nowhere 1)))])
        (some (.block .nowhere [])),
      .ret .nowhere (some (.binary .nowhere (.lit .nowhere 1) .slash (.var .nowhere "n")))]⟩]
    body := .block .nowhere [
      .expr .nowhere (.call .nowhere printName [.lit .nowhere 1]),
      .block .nowhere [
        .expr .nowhere (.call .nowhere printName [.call .nowhere "f" [.lit .nowhere 2]])]] }

theorem plainly_roundabout :
    Relation.EqvGen Program.Reshaped plainly roundabout ∧
    plainly.EndsWith "1\n" [] (some (.failed .divisionByZero .nowhere ["f", "<main>"])) ∧
    roundabout.EndsWith "1\n" [] (some (.failed .divisionByZero .nowhere ["f", "<main>"])) := by
  have hreshaped : Relation.EqvGen Program.Reshaped plainly roundabout := by
    refine .trans _ _ _ (.rel _ _ (.function .nowhere [] _ [] _
      (.block .nowhere [] _ (.here (.unroll .nowhere .nowhere .nowhere .nowhere _ _))))) ?_
    refine .trans _ _ _ (.rel _ _ (.function .nowhere [] _ [] _
      (.block .nowhere [] _ (.here (.addElse .nowhere .nowhere _ _))))) ?_
    exact .rel _ _ (.body .nowhere _ (.here (.wrap .nowhere .nowhere [_] [_] [])))
  have hends : plainly.EndsWith "1\n" []
      (some (.failed .divisionByZero .nowhere ["f", "<main>"])) := by
    refine Program.endsWith_iff.mpr ⟨?_, ⟨none, 40, 40⟩, rfl, ?_, ?_, ?_⟩
    · rintro _ ⟨⟩
      exact .failed _ _ _
    · decide +kernel
    · decide +kernel
    · decide +kernel
  exact ⟨hreshaped, hends, (reshaping_keeps_outcome hreshaped _ _ _).mp hends⟩

end MiniLang
