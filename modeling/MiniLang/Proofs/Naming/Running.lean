/-
  Running under other names.

  The run of a renamed program goes through states that are the states of the run itself under the
  other names.  A name is looked for among the records from the innermost outwards and then among
  the globals, and a renaming keeps different names apart, so whatever a name is found to be (a
  local of some call, a global variable, a function, or nothing) its other name is found to be too.

  1. **Tables** — `Renamed r R t t'`: in the same order the other keys, with related entries.
  2. **States** — `m.Renamed r n m'`: `m'` is `m` under the other names, inside `n` calls.  The
     number tells the record of the program, whose name stays, from the records of calls, so that
     leaving a call is possible only where one is live.
  3. **Computations** — `Eval.Renamed r V x y`: from related states `x` and `y` end in related
     states, in values related by `V` or for the same reason under the other names.
  4. **The evaluator** — by induction on the frames, and whole runs (`renaming_keeps_run`).
-/
import MiniLang.Proofs.Naming.Renamed
import MiniLang.Proofs.Printing.RoundTrip
import MiniLang.Proofs.Running.Reached

namespace MiniLang

variable {r : Renaming} {α β : Type}

/-! ## Tables -/

namespace Table

/-- The other keys in the same order, with related entries. -/
def Renamed (r : Renaming) (R : α → α → Prop) (t t' : Table α) : Prop :=
  List.Forall₂ (fun entry entry' =>
    IsCallable entry.1 ∧ entry'.1 = r.apply entry.1 ∧ R entry.2 entry'.2) t t'

variable {R : α → α → Prop} {t t' : Table α} {name : String}

/-- A name and its other name have related entries, or none. -/
theorem get?_renamed (h : Renamed r R t t') (hname : IsCallable name) :
    Option.Rel R (t.get? name) (t'.get? (r.apply name)) := by
  induction h with
  | nil => exact .none
  | @cons entry entry' rest rest' hentry _ ih =>
    obtain ⟨key, a⟩ := entry
    obtain ⟨key', a'⟩ := entry'
    obtain ⟨hkey, rfl, ha⟩ := hentry
    rw [get?, get?]
    by_cases heq : key = name
    · rw [if_pos heq, if_pos (congrArg r.apply heq)]
      exact .some ha
    · rw [if_neg heq, if_neg (mt (r.injective hkey hname) heq)]
      exact ih

theorem has_renamed (h : Renamed r R t t') (hname : IsCallable name) :
    t'.has (r.apply name) = t.has name := by
  have hentries := get?_renamed h hname
  rw [has, has]
  generalize t.get? name = o at hentries ⊢
  generalize t'.get? (r.apply name) = o' at hentries ⊢
  cases hentries with
  | none => rfl
  | some _ => rfl

theorem set_renamed (h : Renamed r R t t') (hname : IsCallable name) {a a' : α} (ha : R a a') :
    Renamed r R (t.set name a) (t'.set (r.apply name) a') := by
  induction h with
  | nil => exact .cons ⟨hname, rfl, ha⟩ .nil
  | @cons entry entry' rest rest' hentry hrest ih =>
    obtain ⟨key, b⟩ := entry
    obtain ⟨key', b'⟩ := entry'
    obtain ⟨hkey, rfl, hb⟩ := hentry
    rw [set, set]
    by_cases heq : key = name
    · rw [if_pos heq, if_pos (congrArg r.apply heq)]
      exact .cons ⟨hkey, rfl, ha⟩ hrest
    · rw [if_neg heq, if_neg (mt (r.injective hkey hname) heq)]
      exact .cons ⟨hkey, rfl, hb⟩ ih

/-- The bindings of some parameters, of which some may come twice. -/
theorem ofPairs_renamed {names : List String} (hnames : ∀ name ∈ names, IsCallable name)
    (entries : List α) :
    Renamed r Eq (ofPairs names entries) (ofPairs (names.map r.apply) entries) := by
  have hpairs : ∀ (ps : List (String × α)), (∀ p ∈ ps, IsCallable p.1) → ∀ t t' : Table α,
      Renamed r Eq t t' →
      Renamed r Eq (ps.foldl (fun t p => t.set p.1 p.2) t)
        ((ps.map fun p => (r.apply p.1, p.2)).foldl (fun t p => t.set p.1 p.2) t') := by
    intro ps
    induction ps with
    | nil => exact fun _ _ _ h => h
    | cons p ps ih =>
      intro hps t t' h
      obtain ⟨hp, hrest⟩ := List.forall_mem_cons.mp hps
      exact ih hrest _ _ (set_renamed h hp rfl)
  unfold ofPairs
  rw [List.zip_map_left]
  exact hpairs _ (fun p hp => hnames p.1 (List.of_mem_zip hp).1) [] [] .nil

end Table

/-! ## States -/

/-- The same value, or a function under other names. -/
inductive Symbol.Renamed (r : Renaming) : Symbol → Symbol → Prop
  | value (v : Int) : Renamed r (.variable v) (.variable v)
  | definition {f : FunctionDef} : f.Named → Renamed r (.function f) (.function (f.renamed r))

/-- A call under other names. -/
structure Record.Renamed (r : Renaming) (record record' : Record) : Prop where
  function : record'.function = r.apply record.function
  locals : Table.Renamed r Eq record.locals record'.locals

/-- So many calls under other names, and the record of the program outside them. -/
inductive Record.AllRenamed (r : Renaming) : Nat → List Record → List Record → Prop
  | main : AllRenamed r 0 [mainRecord] [mainRecord]
  | call {n record record' rest rest'} : record.Renamed r record' → AllRenamed r n rest rest' →
      AllRenamed r (n + 1) (record :: rest) (record' :: rest')

/-- A state under other names, inside so many calls. -/
structure Machine.Renamed (r : Renaming) (n : Nat) (m m' : Machine) : Prop where
  globals : Table.Renamed r (Symbol.Renamed r) m.globals m'.globals
  stack : Record.AllRenamed r n m.stack m'.stack
  printed : m'.printed = m.printed
  steps : m'.steps = m.steps

namespace Machine

variable {n : Nat} {m m' : Machine} {name : String}

/-- The innermost record that binds a name is the one that binds its other name. -/
theorem localIn_renamed {stack stack' : List Record} (h : Record.AllRenamed r n stack stack')
    (hname : IsCallable name) : localIn stack' (r.apply name) = localIn stack name := by
  induction h with
  | main => rfl
  | call hrecord _ ih =>
    have hentries := Table.get?_renamed hrecord.locals hname
    rw [localIn, localIn]
    generalize Table.get? _ name = o at hentries ⊢
    generalize Table.get? _ (r.apply name) = o' at hentries ⊢
    cases hentries with
    | none => exact ih
    | some h => rw [h]

/-- A name is bound anew where its other name is. -/
theorem rebindIn_renamed {stack stack' : List Record} (h : Record.AllRenamed r n stack stack')
    (hname : IsCallable name) (v : Int) :
    Option.Rel (Record.AllRenamed r n) (rebindIn stack name v)
      (rebindIn stack' (r.apply name) v) := by
  induction h with
  | main => exact .none
  | @call n record record' rest rest' hrecord hrest ih =>
    rw [rebindIn, rebindIn, Table.has_renamed hrecord.locals hname]
    by_cases hhas : record.locals.has name = true
    · rw [if_pos hhas, if_pos hhas]
      exact .some (.call ⟨hrecord.function, Table.set_renamed hrecord.locals hname rfl⟩ hrest)
    · rw [if_neg hhas, if_neg hhas]
      generalize rebindIn rest name v = o at ih ⊢
      generalize rebindIn rest' (r.apply name) v = o' at ih ⊢
      cases ih with
      | none => exact .none
      | some hinner => exact .some (.call hrecord hinner)

theorem calls_renamed (h : m.Renamed r n m') : m'.calls = r.calls m.calls := by
  have hstack := h.stack
  unfold calls
  clear h
  generalize m.stack = stack at hstack ⊢
  generalize m'.stack = stack' at hstack ⊢
  induction hstack with
  | main => rfl
  | @call n record record' rest rest' hrecord hrest ih =>
    -- inside a call its name is not the last one
    have hinner : rest.map (·.function) ≠ [] := by
      cases hrest with
      | main => exact List.cons_ne_nil _ _
      | call _ _ => exact List.cons_ne_nil _ _
    rw [List.map_cons, List.map_cons, ih, hrecord.function, Renaming.calls, Renaming.calls,
      List.dropLast_cons_of_ne_nil hinner]
    rfl

theorem read?_renamed (h : m.Renamed r n m') (hname : IsCallable name) :
    m'.read? (r.apply name) = m.read? name := by
  have hglobal := Table.get?_renamed h.globals hname
  rw [read?, read?, localIn_renamed h.stack hname]
  generalize m.globals.get? name = o at hglobal ⊢
  generalize m'.globals.get? (r.apply name) = o' at hglobal ⊢
  cases localIn m.stack name with
  | some v => rfl
  | none =>
    cases hglobal with
    | none => rfl
    | some hsymbol => cases hsymbol <;> rfl

/-- A name and its other name call functions that differ in names only, or none. -/
theorem callee?_renamed (h : m.Renamed r n m') (hname : IsCallable name) :
    Option.Rel (fun f f' => f.Named ∧ f' = f.renamed r) (m.callee? name)
      (m'.callee? (r.apply name)) := by
  have hglobal := Table.get?_renamed h.globals hname
  rw [callee?, callee?]
  generalize m.globals.get? name = o at hglobal ⊢
  generalize m'.globals.get? (r.apply name) = o' at hglobal ⊢
  cases hglobal with
  | none => exact .none
  | some hsymbol =>
    cases hsymbol with
    | value v => exact .none
    | definition hf => exact .some ⟨hf, rfl⟩

namespace Renamed

theorem assign (h : m.Renamed r n m') (hname : IsCallable name) (v : Int) :
    (m.assign name v).Renamed r n (m'.assign (r.apply name) v) := by
  have hstack := rebindIn_renamed h.stack hname v
  unfold Machine.assign
  generalize rebindIn m.stack name v = o at hstack ⊢
  generalize rebindIn m'.stack (r.apply name) v = o' at hstack ⊢
  cases hstack with
  | none => exact { h with globals := Table.set_renamed h.globals hname (.value v) }
  | some hinner => exact { h with stack := hinner }

theorem enter (h : m.Renamed r n m') {record record' : Record} (hrecord : record.Renamed r record') :
    Machine.Renamed r (n + 1) { m with stack := record :: m.stack }
      { m' with stack := record' :: m'.stack } :=
  ⟨h.globals, .call hrecord h.stack, h.printed, h.steps⟩

theorem leave (h : m.Renamed r (n + 1) m') :
    Machine.Renamed r n { m with stack := m.stack.tail } { m' with stack := m'.stack.tail } := by
  refine ⟨h.globals, ?_, h.printed, h.steps⟩
  have hstack := h.stack
  generalize m.stack = stack at hstack ⊢
  generalize m'.stack = stack' at hstack ⊢
  cases hstack with
  | call _ hrest => exact hrest

theorem output (h : m.Renamed r n m') : m'.output = m.output := by
  rw [Machine.output, Machine.output, h.printed]

/-- Global variables have the other names and the same values, in the same order. -/
theorem globalVars (h : m.Renamed r n m') : m'.globalVars = m.globalVars.renamed r := by
  have hglobals := h.globals
  unfold Machine.globalVars
  unfold Table.Renamed at hglobals
  generalize m.globals = t at hglobals ⊢
  generalize m'.globals = t' at hglobals ⊢
  induction hglobals with
  | nil => rfl
  | @cons entry entry' rest rest' hentry _ ih =>
    obtain ⟨key, a⟩ := entry
    obtain ⟨key', a'⟩ := entry'
    obtain ⟨_, hkey, ha⟩ := hentry
    simp only at hkey ha
    subst hkey
    cases ha with
    | value v => rw [List.filterMap_cons, List.filterMap_cons, ih]; rfl
    | definition _ => rw [List.filterMap_cons, List.filterMap_cons, ih]

end Renamed

/-- Named functions are made known under their other names. -/
theorem define_renamed : ∀ {functions : List FunctionDef}, (∀ f ∈ functions, f.Named) →
    ∀ {m m' : Machine}, Table.Renamed r (Symbol.Renamed r) m.globals m'.globals →
      Table.Renamed r (Symbol.Renamed r) (m.define functions).globals
        (m'.define (functions.map (FunctionDef.renamed r))).globals := by
  intro functions
  induction functions with
  | nil => exact fun _ _ _ h => h
  | cons f rest ih =>
    intro hfunctions m m' h
    obtain ⟨hf, hrest⟩ := List.forall_mem_cons.mp hfunctions
    have hfirst : Table.Renamed r (Symbol.Renamed r)
        { m with globals := m.globals.set f.name (.function f) }.globals
        { m' with globals :=
            m'.globals.set (f.renamed r).name (.function (f.renamed r)) }.globals :=
      Table.set_renamed h hf.name (.definition hf)
    exact ih hrest hfirst

end Machine

/-! ## Computations -/

/-- Two ways for computations to end: in related states, with related values or for the same reason
    under the other names. -/
inductive EndsRenamed (r : Renaming) (n : Nat) (V : α → α → Prop) :
    EStateM.Result Halt Machine α → EStateM.Result Halt Machine α → Prop
  | ok {a a' m m'} : m.Renamed r n m' → V a a' → EndsRenamed r n V (.ok a m) (.ok a' m')
  | error {halt m m'} : m.Renamed r n m' →
      EndsRenamed r n V (.error halt m) (.error (halt.renamed r) m')

namespace Eval

/-- From related states the computations end in related ones, inside as many calls. -/
def Renamed (r : Renaming) (V : α → α → Prop) (x y : Eval α) : Prop :=
  ∀ n m m', m.Renamed r n m' → EndsRenamed r n V (x m) (y m')

namespace Renamed

variable {V : α → α → Prop} {W : β → β → Prop} {name : String}

theorem bind {x y : Eval α} {f g : α → Eval β} (hx : Renamed r V x y)
    (hf : ∀ a a', V a a' → Renamed r W (f a) (g a')) : Renamed r W (x >>= f) (y >>= g) := by
  intro n m m' h
  have hends := hx n m m' h
  generalize hxm : x m = result at hends
  generalize hym : y m' = result' at hends
  cases hends with
  | ok hm ha =>
    rw [bind_of_ok hxm, bind_of_ok hym]
    exact hf _ _ ha n _ _ hm
  | error hm =>
    rw [bind_of_error hxm, bind_of_error hym]
    exact .error hm

/-- What follows equal values is only to be related for one value. -/
theorem bind_eq {x y : Eval α} {f g : α → Eval β} (hx : Renamed r Eq x y)
    (hf : ∀ a, Renamed r W (f a) (g a)) : Renamed r W (x >>= f) (y >>= g) :=
  hx.bind fun a _ ha => ha ▸ hf a

theorem pure (a : α) : Renamed r Eq (pure a) (pure a) := fun _ _ _ h => .ok h rfl

theorem throw {halt : Halt} (hhalt : halt.renamed r = halt) :
    Renamed r V (throw halt : Eval α) (throw halt) := by
  intro n m m' h
  have hends : EndsRenamed r n V (.error halt m) (.error (halt.renamed r) m') := .error h
  rw [hhalt] at hends
  exact hends

theorem fail {fault fault' : Fault} (span : Span) (hfault : fault' = fault.renamed r) :
    Renamed r V (Eval.fail fault span : Eval α) (Eval.fail fault' span) := by
  intro n m m' h
  rw [Eval.fail, Eval.fail, Machine.calls_renamed h, hfault]
  exact .error h

theorem tick (limits : Limits) (span : Span) :
    Renamed r Eq (Eval.tick limits span) (Eval.tick limits span) := by
  intro n m m' h
  have hcounted : Machine.Renamed r n { m with steps := m.steps + 1 }
      { m' with steps := m'.steps + 1 } := { h with steps := congrArg (· + 1) h.steps }
  simp only [Eval.tick, h.steps] at hcounted ⊢
  by_cases hclock : m.steps + 1 ≤ limits.clock
  · simp only [hclock, if_true]
    exact .ok hcounted rfl
  · by_cases hbudget : limits.budget.isSome = true
    · simp only [hclock, hbudget, if_true, if_false]
      exact fail span rfl n _ _ hcounted
    · simp only [hclock, hbudget, if_false]
      exact .error hcounted

theorem read (span : Span) (hname : IsCallable name) :
    Renamed r Eq (Eval.read span name) (Eval.read span (r.apply name)) := by
  intro n m m' h
  rw [Eval.read, Eval.read, Machine.read?_renamed h hname]
  cases m.read? name with
  | some v => exact .ok h rfl
  | none => exact fail span rfl n _ _ h

theorem assign (hname : IsCallable name) (v : Int) :
    Renamed r Eq (Eval.assign name v) (Eval.assign (r.apply name) v) :=
  fun _ _ _ h => .ok (h.assign hname v) rfl

theorem emit (v : Int) : Renamed r Eq (Eval.emit v) (Eval.emit v) :=
  fun _ _ _ h => .ok { h with printed := congrArg (·.push v) h.printed } rfl

/-- No operator fails with a name. -/
theorem operate (span : Span) (op : Token.Kind) (left right : Int) :
    Renamed r Eq (Eval.operate span op left right) (Eval.operate span op left right) := by
  unfold Eval.operate
  cases happly : op.apply left right with
  | ok v => exact pure v
  | error fault =>
    rcases Token.Kind.fault_of_apply happly with ⟨rfl, _⟩ | rfl
    · exact fail span rfl
    · exact fail span rfl

theorem callee (span : Span) (hname : IsCallable name) (args : Nat) :
    Renamed r (fun f f' => f.Named ∧ f' = f.renamed r) (Eval.callee span name args)
      (Eval.callee span (r.apply name) args) := by
  intro n m m' h
  have hcallee := Machine.callee?_renamed h hname
  rw [Eval.callee, Eval.callee]
  generalize m.callee? name = o at hcallee ⊢
  generalize m'.callee? (r.apply name) = o' at hcallee ⊢
  cases hcallee with
  | none => exact fail span rfl n _ _ h
  | @some f f' hf =>
    obtain ⟨hnamed, rfl⟩ := hf
    have hparams : (f.renamed r).params.length = f.params.length := List.length_map _
    show EndsRenamed r n _ (if _ then _ else _) (if _ then _ else _)
    rw [hparams]
    by_cases hargs : f.params.length = args
    · rw [if_pos hargs, if_pos hargs]
      exact .ok h ⟨hnamed, rfl⟩
    · rw [if_neg hargs, if_neg hargs]
      exact fail span rfl n _ _ h

theorem within {x y : Eval α} {record record' : Record} (hrecord : record.Renamed r record')
    (hx : Renamed r V x y) : Renamed r V (Eval.within record x) (Eval.within record' y) := by
  intro n m m' h
  have hends := hx _ _ _ (h.enter hrecord)
  unfold Eval.within
  generalize x { m with stack := record :: m.stack } = result at hends ⊢
  generalize y { m' with stack := record' :: m'.stack } = result' at hends ⊢
  cases hends with
  | ok hm ha => exact .ok hm.leave ha
  | error hm => exact .error hm.leave

theorem each {eval : Expr → Eval Int} : ∀ {es : List Expr},
    (∀ e ∈ es, Renamed r Eq (eval e) (eval (e.renamed r))) →
    Renamed r Eq (Eval.each eval es) (Eval.each eval (es.map (Expr.renamed r))) := by
  intro es
  induction es with
  | nil => exact fun _ => pure []
  | cons e rest ih =>
    intro h
    obtain ⟨he, hrest⟩ := List.forall_mem_cons.mp h
    rw [List.map_cons, Eval.each, Eval.each]
    refine he.bind_eq fun v => ?_
    exact (ih hrest).bind_eq fun vs => pure (v :: vs)

theorem sequence {exec : Stmt → Eval Completion} : ∀ {body : List Stmt},
    (∀ s ∈ body, Renamed r Eq (exec s) (exec (s.renamed r))) →
    Renamed r Eq (Eval.sequence exec body) (Eval.sequence exec (body.map (Stmt.renamed r))) := by
  intro body
  induction body with
  | nil => exact fun _ => pure Completion.next
  | cons s rest ih =>
    intro h
    obtain ⟨hs, hrest⟩ := List.forall_mem_cons.mp h
    rw [List.map_cons, Eval.sequence, Eval.sequence]
    refine hs.bind_eq fun completion => ?_
    cases completion with
    | next => exact ih hrest
    | returned v => exact pure (Completion.returned v)

/-- Two ways to go on, by the value of a condition. -/
theorem branch {cond cond' : Eval Int} {x x' y y' : Eval Completion}
    (hcond : Renamed r Eq cond cond') (hx : Renamed r Eq x x') (hy : Renamed r Eq y y') :
    Renamed r Eq (cond >>= fun v => if v = 0 then x else y)
      (cond' >>= fun v => if v = 0 then x' else y') := by
  refine hcond.bind_eq fun v => ?_
  by_cases hv : v = 0
  · simp only [hv, if_true]
    exact hx
  · simp only [hv, if_false]
    exact hy

theorem whileNonzero {cond cond' : Eval Int} {body body' : Eval Completion}
    (hcond : Renamed r Eq cond cond') (hbody : Renamed r Eq body body') :
    ∀ k, Renamed r Eq (Eval.whileNonzero cond body k) (Eval.whileNonzero cond' body' k) := by
  intro k
  induction k with
  | zero => exact throw rfl
  | succ k ih =>
    rw [Eval.whileNonzero, Eval.whileNonzero]
    refine hcond.branch (pure Completion.next) ?_
    refine hbody.bind_eq fun completion => ?_
    cases completion with
    | next => exact ih
    | returned v => exact pure (Completion.returned v)

end Renamed

end Eval

/-! ## The evaluator -/

/-- With `d` frames the evaluator goes the same way under other names. -/
structure EvaluatorRenamed (r : Renaming) (limits : Limits) (d : Nat) : Prop where
  eval : ∀ {e : Expr}, e.Named →
    Eval.Renamed r Eq (e.eval limits d) ((e.renamed r).eval limits d)
  exec : ∀ {s : Stmt}, s.Named →
    Eval.Renamed r Eq (s.exec limits d) ((s.renamed r).exec limits d)
  call : ∀ span {name args}, IsCallable name → (∀ a ∈ args, a.Named) →
    Eval.Renamed r Eq (callFunction limits d span name args)
      (callFunction limits d span (r.apply name) (args.map (Expr.renamed r)))

section Evaluator

variable {limits : Limits} {d : Nat}

open Eval (Renamed)

theorem eval_renamed (h : EvaluatorRenamed r limits d) {e : Expr} (he : e.Named) :
    Renamed r Eq (e.eval limits (d + 1)) ((e.renamed r).eval limits (d + 1)) := by
  cases he with
  | @lit span v =>
    rw [Expr.renamed]
    exact .pure v
  | @var span name hname =>
    rw [Expr.renamed]
    exact .read span hname
  | @stray span label =>
    rw [Expr.renamed]
    exact .fail span rfl
  | @call span name args hname hargs =>
    rw [Expr.renamed]
    exact h.call span hname hargs
  | @binary span left op right hleft hright =>
    rw [Expr.renamed, Expr.eval, Expr.eval]
    refine (h.eval hleft).bind_eq fun a => ?_
    exact (h.eval hright).bind_eq fun b => .operate span op a b

theorem exec_renamed (h : EvaluatorRenamed r limits d) {s : Stmt} (hs : s.Named) :
    Renamed r Eq (s.exec limits (d + 1)) ((s.renamed r).exec limits (d + 1)) := by
  unfold Stmt.exec
  rw [Stmt.renamed_span]
  refine Renamed.bind_eq (.tick limits s.span) fun _ => ?_
  cases hs with
  | block hbody =>
    rw [Stmt.renamed]
    exact .sequence fun s hs => h.exec (hbody s hs)
  | expr he =>
    rw [Stmt.renamed]
    exact (h.eval he).bind_eq fun _ => .pure Completion.next
  | assign hname he =>
    rw [Stmt.renamed]
    refine (h.eval he).bind_eq fun v => ?_
    exact Renamed.bind_eq (.assign hname v) fun _ => .pure Completion.next
  | @ifElse _ _ _ no hcond hyes hno =>
    rw [Stmt.renamed_ifElse]
    refine (h.eval hcond).branch ?_ (h.exec hyes)
    cases no with
    | some s => exact h.exec (hno s rfl)
    | none => exact .pure Completion.next
  | loop hcond hbody =>
    rw [Stmt.renamed]
    exact .whileNonzero (h.eval hcond) (h.exec hbody) _
  | @ret _ value hvalue =>
    rw [Stmt.renamed]
    cases value with
    | none => exact .pure (Completion.returned 0)
    | some e => exact (h.eval (hvalue e rfl)).bind_eq fun v => .pure (Completion.returned v)
  | @stray span label =>
    rw [Stmt.renamed]
    exact .fail span rfl

theorem call_renamed (h : EvaluatorRenamed r limits d) (span : Span) {name : String}
    {args : List Expr} (hname : IsCallable name) (hargs : ∀ a ∈ args, a.Named) :
    Renamed r Eq (callFunction limits (d + 1) span name args)
      (callFunction limits (d + 1) span (r.apply name) (args.map (Expr.renamed r))) := by
  unfold callFunction
  by_cases hprint : name = printName
  · rw [if_pos hprint, if_pos ((r.apply_eq_print hname).mpr hprint)]
    rcases args with _ | ⟨e, _ | ⟨e', rest⟩⟩
    · exact .fail span rfl
    · refine (h.eval (hargs e List.mem_cons_self)).bind_eq fun v => ?_
      exact Renamed.bind_eq (.emit v) fun _ => .pure 0
    · rw [List.length_map]
      exact .fail span rfl
  · rw [if_neg hprint, if_neg (mt (r.apply_eq_print hname).mp hprint), List.length_map]
    refine Renamed.bind (.callee span hname args.length) ?_
    rintro f _ ⟨hf, rfl⟩
    refine Renamed.bind_eq (.each fun e he => h.eval (hargs e he)) fun vs => ?_
    have hrecord : Record.Renamed r ⟨f.name, .ofPairs f.params vs⟩
        ⟨(f.renamed r).name, .ofPairs (f.renamed r).params vs⟩ :=
      ⟨rfl, Table.ofPairs_renamed hf.params vs⟩
    refine (Renamed.within hrecord (h.exec hf.body)).bind_eq fun completion => ?_
    cases completion with
    | next => exact .pure 0
    | returned v => exact .pure v

theorem evaluator_renamed (r : Renaming) (limits : Limits) : ∀ d, EvaluatorRenamed r limits d := by
  intro d
  induction d with
  | zero =>
    exact {
      eval := fun _ => by rw [Expr.eval, Expr.eval]; exact .throw rfl
      exec := fun _ => by rw [Stmt.exec, Stmt.exec]; exact .throw rfl
      call := fun _ _ _ _ _ => by rw [callFunction, callFunction]; exact .throw rfl }
  | succ d ih =>
    exact { eval := eval_renamed ih, exec := exec_renamed ih, call := call_renamed ih }

end Evaluator

/-! ## Whole runs -/

/-- What a run leaves behind, under other names. -/
structure Outcome.Renamed (r : Renaming) (o o' : Outcome) : Prop where
  output : o'.output = o.output
  steps : o'.steps = o.steps
  globals : o'.globals = o.globals.renamed r
  halt : o'.halt = o.halt.map (Halt.renamed r)

/-- The body of a named program and that of the program under other names begin in related states:
    inside the record of the program, and inside no call. -/
theorem Program.Named.entry {p : Program} (hp : p.Named) :
    Machine.Renamed r 0 p.entry (p.renamed r).entry where
  globals := Machine.define_renamed hp.functions .nil
  stack := .main
  printed := rfl
  steps := rfl

theorem Program.Named.run_renamed {p : Program} (hp : p.Named) (r : Renaming) (limits : Limits) :
    (p.run limits).Renamed r ((p.renamed r).run limits) := by
  have hends := (evaluator_renamed r limits limits.frames).exec hp.body 0 _ _ hp.entry
  generalize hx : p.body.exec limits limits.frames p.entry = result at hends
  generalize hy : (p.body.renamed r).exec limits limits.frames (p.renamed r).entry = result'
    at hends
  cases hends with
  | ok hm _ =>
    rw [Program.run_of_ok (Eval.within_of_ok hx), Program.run_of_ok (Eval.within_of_ok hy)]
    exact ⟨hm.output, hm.steps, hm.globalVars, rfl⟩
  | error hm =>
    rw [Program.run_of_error (Eval.within_of_error hx),
      Program.run_of_error (Eval.within_of_error hy)]
    exact ⟨hm.output, hm.steps, hm.globalVars, rfl⟩

/-- **Names do not matter.**  Every program that is parsed from a source is named.  Under any
    limits, a named program whose names are all put through a renaming runs as the program does: with
    the same output and steps, the global variables under their other names, and the same failure,
    if any, which tells the other names. -/
theorem renaming_keeps_run :
    (∀ source tokens frames program, Token.ofSource source = .ok tokens →
      Program.ofTokens frames tokens = .ok program → program.Named) ∧
    ∀ program : Program, program.Named → ∀ (r : Renaming) (limits : Limits),
      (program.run limits).Renamed r ((program.renamed r).run limits) :=
  ⟨fun _ _ _ _ hsource hprogram => (parsed_of_ofTokens hsource hprogram).named,
    fun _ hprogram r limits => hprogram.run_renamed r limits⟩

/-- A function, its parameter and a variable of one name, and a variable that has no value. -/
def shared : String := "func f(f)\x7bf=f+1;print(f);x=f;return y;\x7dx=1;f(x);"

/-- The tree of `shared`, without places. -/
def sharedProgram : Program :=
  { span := .nowhere
    functions := [⟨.nowhere, "f", ["f"], .block .nowhere [
      .assign .nowhere "f" (.binary .nowhere (.var .nowhere "f") .plus (.lit .nowhere 1)),
      .expr .nowhere (.call .nowhere printName [.var .nowhere "f"]),
      .assign .nowhere "x" (.var .nowhere "f"),
      .ret .nowhere (some (.var .nowhere "y"))]⟩]
    body := .block .nowhere [
      .assign .nowhere "x" (.lit .nowhere 1),
      .expr .nowhere (.call .nowhere "f" [.var .nowhere "x"])] }

/-- Three names that change places. -/
def rotation : Renaming where
  apply := fun name =>
    if name = "f" then "x" else if name = "x" then "y" else if name = "y" then "f" else name
  print := by decide
  injective := by
    intro a b _ _ h
    split_ifs at h <;> simp_all

theorem shared_rotated :
    (∃ tokens program, Token.ofSource shared = .ok tokens ∧
      Program.ofTokens 500 tokens = .ok program ∧ program.Named) ∧
    sharedProgram.Named ∧
    ((sharedProgram.renamed rotation).run ⟨some 9, 0, 9⟩).output = "2\n" ∧
    ((sharedProgram.renamed rotation).run ⟨some 9, 0, 9⟩).globals = [("y", 2)] ∧
    ((sharedProgram.renamed rotation).run ⟨some 9, 0, 9⟩).halt =
      some (.failed (.undefinedVariable "f") .nowhere ["x", "<main>"]) := by
  have hread : ((Token.ofSource shared).toOption.bind fun tokens =>
      (Program.ofTokens 500 tokens).toOption).isSome = true := by decide +kernel
  obtain ⟨program, hsome⟩ := Option.isSome_iff_exists.mp hread
  obtain ⟨tokens, htokens, hprogram⟩ := Option.bind_eq_some_iff.mp hsome
  have hsource : Token.ofSource shared = .ok tokens := Token.eq_ok_of_toOption htokens
  have hparsed : Program.ofTokens 500 tokens = .ok program := Token.eq_ok_of_toOption hprogram
  have hf : IsCallable "f" := .inl ⟨by decide, 'f', [], rfl, by decide, nofun⟩
  have hx : IsCallable "x" := .inl ⟨by decide, 'x', [], rfl, by decide, nofun⟩
  have hy : IsCallable "y" := .inl ⟨by decide, 'y', [], rfl, by decide, nofun⟩
  have hnamed : sharedProgram.Named := by
    refine ⟨List.forall_mem_singleton.mpr ⟨hf, List.forall_mem_singleton.mpr hf, .block ?_⟩,
      .block ?_⟩
    · refine List.forall_mem_cons.mpr ⟨.assign hf (.binary (.var hf) .lit), ?_⟩
      refine List.forall_mem_cons.mpr
        ⟨.expr (.call isCallable_print (List.forall_mem_singleton.mpr (.var hf))), ?_⟩
      refine List.forall_mem_cons.mpr ⟨.assign hx (.var hf), ?_⟩
      refine List.forall_mem_singleton.mpr (.ret ?_)
      rintro e ⟨⟩
      exact .var hy
    · refine List.forall_mem_cons.mpr ⟨.assign hx .lit, ?_⟩
      exact List.forall_mem_singleton.mpr
        (.expr (.call hf (List.forall_mem_singleton.mpr (.var hx))))
  have hrun := renaming_keeps_run.2 sharedProgram hnamed rotation ⟨some 9, 0, 9⟩
  refine ⟨⟨tokens, program, hsource, hparsed, renaming_keeps_run.1 _ _ _ _ hsource hparsed⟩, hnamed,
    ?_, ?_, ?_⟩
  · rw [hrun.output]
    decide +kernel
  · rw [hrun.globals]
    decide +kernel
  · rw [hrun.halt]
    decide +kernel

end MiniLang
