/-
  The values of a run are words.

  The words are the integers in `[-2^63, 2^63)`.  A program gets them from its literals, and no
  operator leaves them: a quotient is wrapped like a sum, and there is one that needs it, `-2^63`
  divided by `-1`.

  1. **Literals** — `Expr.Worded` and its like: every literal is a word.  The lexer folds each
     number into the words and the parser keeps them, so every parsed program is worded.
  2. **The invariant** — `Machine.Worded`: so are the variables, the locals, the values printed and
     the literals of the functions.
  3. **Computations** — `Yields x good`: from a worded state `x` leaves a worded one, whichever way
     it ends, and a value that it ends in is `good`.  Everything that the evaluator does yields
     words (`evaluator_yields`).
-/
import MiniLang.Proofs.Printing.Parsed
import MiniLang.Proofs.Running.History
import MiniLang.Proofs.Running.Reached

namespace MiniLang

open Word (InRange)

/-! ## Literals -/

/-- Every literal of the expression is a word. -/
inductive Expr.Worded : Expr → Prop
  | lit {span v} : InRange v → Worded (.lit span v)
  | var {span name} : Worded (.var span name)
  | binary {span left op right} : Worded left → Worded right → Worded (.binary span left op right)
  | call {span name args} : (∀ a ∈ args, Worded a) → Worded (.call span name args)
  | stray {span label} : Worded (.stray span label)

/-- Every literal of the statement is a word. -/
inductive Stmt.Worded : Stmt → Prop
  | block {span body} : (∀ s ∈ body, Worded s) → Worded (.block span body)
  | expr {span e} : e.Worded → Worded (.expr span e)
  | assign {span name value} : value.Worded → Worded (.assign span name value)
  | ifElse {span cond yes no} : cond.Worded → Worded yes → (∀ s ∈ no, Worded s) →
      Worded (.ifElse span cond yes no)
  | loop {span cond body} : cond.Worded → Worded body → Worded (.loop span cond body)
  | ret {span value} : (∀ e ∈ value, e.Worded) → Worded (.ret span value)
  | stray {span label} : Worded (.stray span label)

/-- Every literal of the program is a word. -/
structure Program.Worded (p : Program) : Prop where
  functions : ∀ f ∈ p.functions, f.body.Worded
  body : p.body.Worded

/-- Every literal of the task is a word. -/
def Task.Worded : Task → Prop
  | .expr e => e.Worded
  | .stmt s => s.Worded
  | .call _ _ args => ∀ a ∈ args, a.Worded

theorem Expr.worded_of_parsed {e : Expr} (h : e.Parsed) : e.Worded := by
  induction h with
  | lit hv => exact .lit hv
  | var _ => exact .var
  | binary _ _ _ _ ihl ihr => exact .binary ihl ihr
  | call _ _ ih => exact .call ih

theorem Stmt.worded_of_parsed {s : Stmt} (h : s.Parsed) : s.Worded := by
  induction h with
  | block _ ih => exact .block ih
  | expr he => exact .expr (Expr.worded_of_parsed he)
  | assign _ he => exact .assign (Expr.worded_of_parsed he)
  | ifThen hcond _ ih => exact .ifElse (Expr.worded_of_parsed hcond) ih nofun
  | ifElse hcond _ _ _ ihyes ihno =>
    refine .ifElse (Expr.worded_of_parsed hcond) ihyes ?_
    rintro s ⟨⟩
    exact ihno
  | loop hcond _ ih => exact .loop (Expr.worded_of_parsed hcond) ih
  | retNone => exact .ret nofun
  | ret he =>
    refine .ret ?_
    rintro e ⟨⟩
    exact Expr.worded_of_parsed he

theorem Program.Parsed.worded {p : Program} (h : p.Parsed) : p.Worded where
  functions := fun f hf => Stmt.worded_of_parsed (h.functions f hf).body.parsed
  body := Stmt.worded_of_parsed h.body.parsed

/-! ## Operators -/

theorem inRange_ofTruth (holds : Bool) : InRange (ofTruth holds) := by
  cases holds with
  | true => decide
  | false => decide

/-- Whatever the operands are, the result of an operator is a word. -/
theorem inRange_of_apply {op : Token.Kind} {l r v : Int} (h : op.apply l r = .ok v) :
    InRange v := by
  unfold Token.Kind.apply at h
  split at h
  case h_4 | h_5 =>
    split at h <;> cases h
    exact Word.wrap_inRange _
  all_goals cases h
  all_goals first | exact Word.wrap_inRange _ | exact inRange_ofTruth _

/-! ## Tables -/

namespace Table

variable {α : Type}

theorem mem_of_get? : ∀ {t : Table α} {name : String} {a : α}, t.get? name = some a →
    (name, a) ∈ t := by
  intro t
  induction t with
  | nil => exact nofun
  | cons entry rest ih =>
    intro name a h
    obtain ⟨key, b⟩ := entry
    rw [get?] at h
    by_cases hkey : key = name
    · rw [if_pos hkey] at h
      cases h
      rw [hkey]
      exact List.mem_cons_self
    · rw [if_neg hkey] at h
      exact List.mem_cons_of_mem _ (ih h)

/-- What holds of the entries of a table and of a new entry holds of all of them once it is set. -/
theorem forall_set {P : α → Prop} {a : α} (ha : P a) : ∀ {t : Table α}, (∀ entry ∈ t, P entry.2) →
    ∀ name, ∀ entry ∈ t.set name a, P entry.2 := by
  intro t
  induction t with
  | nil =>
    intro _ name entry hentry
    rw [set, List.mem_singleton] at hentry
    rw [hentry]
    exact ha
  | cons entry rest ih =>
    intro ht name
    obtain ⟨key, b⟩ := entry
    obtain ⟨hb, hrest⟩ := List.forall_mem_cons.mp ht
    rw [set]
    by_cases hkey : key = name
    · rw [if_pos hkey]
      exact List.forall_mem_cons.mpr ⟨ha, hrest⟩
    · rw [if_neg hkey]
      exact List.forall_mem_cons.mpr ⟨hb, ih hrest name⟩

/-- By induction on the pairs, with the table that is built so far. -/
theorem forall_ofPairs {P : α → Prop} {names : List String} {entries : List α}
    (h : ∀ a ∈ entries, P a) : ∀ entry ∈ ofPairs names entries, P entry.2 := by
  have hfold : ∀ (pairs : List (String × α)) (t : Table α), (∀ p ∈ pairs, P p.2) →
      (∀ entry ∈ t, P entry.2) →
      ∀ entry ∈ pairs.foldl (fun t p => t.set p.1 p.2) t, P entry.2 := by
    intro pairs
    induction pairs with
    | nil => exact fun t _ ht => ht
    | cons p rest ih =>
      intro t hpairs ht
      obtain ⟨hp, hrest⟩ := List.forall_mem_cons.mp hpairs
      exact ih _ hrest (forall_set hp ht p.1)
  exact hfold _ [] (fun p hp => h p.2 (List.of_mem_zip hp).2) nofun

end Table

/-! ## The invariant -/

/-- A variable is a word, and the literals of a function are words. -/
def Symbol.Worded : Symbol → Prop
  | .variable v => InRange v
  | .function f => f.body.Worded

/-- The locals of a call are words. -/
def Record.Worded (record : Record) : Prop := ∀ entry ∈ record.locals, InRange entry.2

/-- Everything that a state holds is made of words. -/
structure Machine.Worded (m : Machine) : Prop where
  globals : ∀ entry ∈ m.globals, entry.2.Worded
  locals : ∀ record ∈ m.stack, record.Worded
  printed : ∀ v ∈ m.printed.toList, InRange v

/-- The values of a completion are words. -/
def Completion.Worded (c : Completion) : Prop := ∀ v ∈ c.value?, InRange v

theorem Completion.worded_next : Completion.next.Worded := nofun

theorem Completion.worded_returned {v : Int} (hv : InRange v) : (Completion.returned v).Worded := by
  rintro w ⟨⟩
  exact hv

namespace Machine

variable {m : Machine}

theorem inRange_localIn {v : Int} {name : String} : ∀ {records : List Record},
    (∀ record ∈ records, record.Worded) → localIn records name = some v → InRange v := by
  intro records
  induction records with
  | nil => exact fun _ => nofun
  | cons record rest ih =>
    intro hrecords h
    obtain ⟨hrecord, hrest⟩ := List.forall_mem_cons.mp hrecords
    rw [localIn] at h
    cases hlocal : record.locals.get? name with
    | some w =>
      rw [hlocal] at h
      cases h
      exact hrecord _ (Table.mem_of_get? hlocal)
    | none =>
      rw [hlocal] at h
      exact ih hrest h

theorem Worded.read? (hm : m.Worded) {name : String} {v : Int} (h : m.read? name = some v) :
    InRange v := by
  unfold Machine.read? at h
  cases hlocal : localIn m.stack name with
  | some w =>
    rw [hlocal] at h
    cases h
    exact inRange_localIn hm.locals hlocal
  | none =>
    rw [hlocal] at h
    cases hglobal : m.globals.get? name with
    | none => rw [hglobal] at h; cases h
    | some symbol =>
      rw [hglobal] at h
      cases symbol with
      | function f => cases h
      | «variable» w =>
        cases h
        exact hm.globals _ (Table.mem_of_get? hglobal)

theorem Worded.callee? (hm : m.Worded) {name : String} {f : FunctionDef}
    (h : m.callee? name = some f) : f.body.Worded := by
  unfold Machine.callee? at h
  cases hglobal : m.globals.get? name with
  | none => rw [hglobal] at h; cases h
  | some symbol =>
    rw [hglobal] at h
    cases symbol with
    | «variable» w => cases h
    | function g =>
      cases h
      exact hm.globals _ (Table.mem_of_get? hglobal)

theorem worded_rebindIn {name : String} {v : Int} (hv : InRange v) :
    ∀ {records rebound : List Record}, (∀ record ∈ records, record.Worded) →
      rebindIn records name v = some rebound → ∀ record ∈ rebound, record.Worded := by
  intro records
  induction records with
  | nil => exact fun _ => nofun
  | cons record rest ih =>
    intro rebound hrecords h
    obtain ⟨hrecord, hrest⟩ := List.forall_mem_cons.mp hrecords
    rw [rebindIn] at h
    by_cases hbound : record.locals.has name = true
    · rw [if_pos hbound] at h
      cases h
      exact List.forall_mem_cons.mpr ⟨Table.forall_set hv hrecord name, hrest⟩
    · rw [if_neg hbound] at h
      obtain ⟨rest', hrest', rfl⟩ := Option.map_eq_some_iff.mp h
      exact List.forall_mem_cons.mpr ⟨hrecord, ih hrest hrest'⟩

theorem Worded.assign (hm : m.Worded) {v : Int} (hv : InRange v) (name : String) :
    (m.assign name v).Worded := by
  unfold Machine.assign
  cases h : rebindIn m.stack name v with
  | some stack => exact { hm with locals := worded_rebindIn hv hm.locals h }
  | none =>
    have hsymbol : (Symbol.variable v).Worded := hv
    exact { hm with globals := Table.forall_set hsymbol hm.globals name }

theorem Worded.emit (hm : m.Worded) {v : Int} (hv : InRange v) :
    Worded { m with printed := m.printed.push v } where
  globals := hm.globals
  locals := hm.locals
  printed := by
    rw [Array.toList_push]
    exact List.forall_mem_append.mpr ⟨hm.printed, List.forall_mem_singleton.mpr hv⟩

theorem Worded.enter (hm : m.Worded) {record : Record} (hrecord : record.Worded) :
    Worded { m with stack := record :: m.stack } where
  globals := hm.globals
  locals := List.forall_mem_cons.mpr ⟨hrecord, hm.locals⟩
  printed := hm.printed

theorem Worded.leave (hm : m.Worded) : Worded { m with stack := m.stack.tail } where
  globals := hm.globals
  locals := fun record hrecord => hm.locals record (List.mem_of_mem_tail hrecord)
  printed := hm.printed

theorem Worded.step (hm : m.Worded) : Worded { m with steps := m.steps + 1 } where
  globals := hm.globals
  locals := hm.locals
  printed := hm.printed

/-- The functions of a worded program are made known in a worded state. -/
theorem Worded.define : ∀ {functions : List FunctionDef}, (∀ f ∈ functions, f.body.Worded) →
    ∀ {m : Machine}, m.Worded → (m.define functions).Worded := by
  intro functions
  induction functions with
  | nil => exact fun _ m hm => hm
  | cons f rest ih =>
    intro hfunctions m hm
    obtain ⟨hf, hrest⟩ := List.forall_mem_cons.mp hfunctions
    have hsymbol : (Symbol.function f).Worded := hf
    have hfirst : Worded { m with globals := m.globals.set f.name (.function f) } :=
      ⟨Table.forall_set hsymbol hm.globals f.name, hm.locals, hm.printed⟩
    exact ih hrest hfirst

end Machine

theorem Program.Worded.entry {p : Program} (hp : p.Worded) : p.entry.Worded := by
  have hempty : Machine.empty.Worded := ⟨nofun, nofun, nofun⟩
  exact (hempty.define hp.functions).enter nofun

/-! ## Computations -/

/-- From a worded state the computation leaves a worded one, and a value that it ends in is
    good. -/
structure Yields {α : Type} (x : Eval α) (good : α → Prop) : Prop where
  after : ∀ m, m.Worded → (x.after m).Worded
  value : ∀ m a m', m.Worded → x m = .ok a m' → good a

namespace Yields

variable {α β : Type} {good : α → Prop} {good' : β → Prop}

theorem of_still {x : Eval α} (hx : Eval.Still x)
    (hgood : ∀ m a m', m.Worded → x m = .ok a m' → good a) : Yields x good where
  after := fun m hm => by rw [hx m]; exact hm
  value := hgood

theorem pure {a : α} (ha : good a) : Yields (pure a) good :=
  of_still (Eval.still_pure a) fun _ _ _ _ h => by cases h; exact ha

theorem fail (fault : Fault) (span : Span) : Yields (Eval.fail fault span) good :=
  of_still (Eval.still_fail fault span) fun _ _ _ _ h => by cases h

theorem throw (halt : Halt) : Yields (throw halt) good :=
  of_still (Eval.still_throw halt) fun _ _ _ _ h => by cases h

/-- What follows sees a worded state and a good value. -/
theorem bind {x : Eval α} {f : α → Eval β} (hx : Yields x good)
    (hf : ∀ a, good a → Yields (f a) good') : Yields (x >>= f) good' := by
  constructor
  case after =>
    intro m hm
    have hafter := hx.after m hm
    cases h : x m with
    | error halt m' =>
      rw [Eval.after_bind_of_error h]
      exact hafter
    | ok a m' =>
      rw [Eval.after_of_ok h] at hafter
      rw [Eval.after_bind_of_ok h]
      exact (hf a (hx.value m a m' hm h)).after m' hafter
  case value =>
    intro m b m'' hm hb
    have hafter := hx.after m hm
    cases h : x m with
    | error halt m' =>
      rw [Eval.bind_of_error h] at hb
      cases hb
    | ok a m' =>
      rw [Eval.after_of_ok h] at hafter
      rw [Eval.bind_of_ok h] at hb
      exact (hf a (hx.value m a m' hm h)).value m' b m'' hafter hb

/-- Where a computation gets to. -/
theorem after_ok {x : Eval α} (hx : Yields x good) {m m' : Machine} {a : α} (hm : m.Worded)
    (h : x m = .ok a m') : m'.Worded := by
  have hafter := hx.after m hm
  rwa [Eval.after_of_ok h] at hafter

theorem tick (limits : Limits) (span : Span) : Yields (Eval.tick limits span) fun _ => True where
  after := fun m hm => by rw [Eval.after_tick]; exact hm.step
  value := fun _ _ _ _ _ => trivial

theorem read (span : Span) (name : String) : Yields (Eval.read span name) InRange := by
  refine of_still (Eval.still_read span name) ?_
  intro m v m' hm h
  unfold Eval.read at h
  cases hread : m.read? name with
  | none => rw [hread] at h; cases h
  | some w =>
    rw [hread] at h
    cases h
    exact hm.read? hread

theorem assign (name : String) {v : Int} (hv : InRange v) :
    Yields (Eval.assign name v) fun _ => True where
  after := fun _ hm => hm.assign hv name
  value := fun _ _ _ _ _ => trivial

theorem emit {v : Int} (hv : InRange v) : Yields (Eval.emit v) fun _ => True where
  after := fun _ hm => hm.emit hv
  value := fun _ _ _ _ _ => trivial

theorem operate (span : Span) (op : Token.Kind) (l r : Int) :
    Yields (Eval.operate span op l r) InRange := by
  unfold Eval.operate
  cases h : op.apply l r with
  | ok v => exact pure (inRange_of_apply h)
  | error fault => exact fail fault span

theorem callee (span : Span) (name : String) (args : Nat) :
    Yields (Eval.callee span name args) fun f => f.body.Worded := by
  refine of_still (Eval.still_callee span name args) ?_
  intro m f m' hm h
  exact hm.callee? (Eval.callee?_of_callee h)

theorem within {x : Eval α} {record : Record} (hrecord : record.Worded) (hx : Yields x good) :
    Yields (Eval.within record x) good where
  after := by
    intro m hm
    rw [Eval.after_within]
    exact (hx.after _ (hm.enter hrecord)).leave
  value := by
    intro m a m' hm h
    unfold Eval.within at h
    cases hinner : x { m with stack := record :: m.stack } with
    | error halt m₁ => simp only [hinner] at h; cases h
    | ok b m₁ =>
      simp only [hinner] at h
      cases h
      exact hx.value _ _ _ (hm.enter hrecord) hinner

theorem each {eval : Expr → Eval Int} : ∀ {es : List Expr}, (∀ e ∈ es, Yields (eval e) InRange) →
    Yields (Eval.each eval es) fun vs => ∀ v ∈ vs, InRange v := by
  intro es
  induction es with
  | nil => exact fun _ => pure nofun
  | cons e rest ih =>
    intro h
    obtain ⟨he, hrest⟩ := List.forall_mem_cons.mp h
    refine he.bind fun v hv => (ih hrest).bind fun vs hvs => ?_
    exact pure (List.forall_mem_cons.mpr ⟨hv, hvs⟩)

theorem sequence {exec : Stmt → Eval Completion} : ∀ {body : List Stmt},
    (∀ s ∈ body, Yields (exec s) Completion.Worded) →
    Yields (Eval.sequence exec body) Completion.Worded := by
  intro body
  induction body with
  | nil => exact fun _ => pure Completion.worded_next
  | cons s rest ih =>
    intro h
    obtain ⟨hs, hrest⟩ := List.forall_mem_cons.mp h
    refine hs.bind fun completion hcompletion => ?_
    cases completion with
    | next => exact ih hrest
    | returned v => exact pure hcompletion

theorem whileNonzero {cond : Eval Int} {body : Eval Completion} (hcond : Yields cond InRange)
    (hbody : Yields body Completion.Worded) :
    ∀ n, Yields (Eval.whileNonzero cond body n) Completion.Worded := by
  intro n
  induction n with
  | zero => exact throw .unfinished
  | succ n ih =>
    refine hcond.bind fun v _ => ?_
    by_cases hv : v = 0
    · simp only [hv, if_true]
      exact pure Completion.worded_next
    · simp only [hv, if_false]
      refine hbody.bind fun completion hcompletion => ?_
      cases completion with
      | next => exact ih
      | returned w => exact pure hcompletion

/-- Full rounds of a loop lead from a worded state to a worded one. -/
theorem rounds {cond : Eval Int} {body : Eval Completion} (hcond : Yields cond InRange)
    (hbody : Yields body Completion.Worded) {n : Nat} {m m' : Machine}
    (h : Eval.Rounds cond body n m m') (hm : m.Worded) : m'.Worded := by
  induction h with
  | none => exact hm
  | more _ hc _ hb ih => exact hbody.after_ok (hcond.after_ok (ih hm) hc) hb

end Yields

/-! ## The evaluator -/

/-- With `d` frames, worded tasks yield words. -/
structure EvaluatorYields (limits : Limits) (d : Nat) : Prop where
  eval : ∀ e : Expr, e.Worded → Yields (e.eval limits d) InRange
  exec : ∀ s : Stmt, s.Worded → Yields (s.exec limits d) Completion.Worded
  call : ∀ span name args, (∀ a ∈ args, a.Worded) →
    Yields (callFunction limits d span name args) InRange

section Evaluator

variable {limits : Limits} {d : Nat}

theorem eval_yields (h : EvaluatorYields limits d) (e : Expr) (he : e.Worded) :
    Yields (e.eval limits (d + 1)) InRange := by
  cases he with
  | lit hv => exact .pure hv
  | var => exact .read _ _
  | stray => exact .fail _ _
  | call hargs => exact h.call _ _ _ hargs
  | binary hl hr =>
    rw [Expr.eval]
    exact (h.eval _ hl).bind fun l _ => (h.eval _ hr).bind fun r _ => .operate _ _ l r

theorem exec_yields (h : EvaluatorYields limits d) (s : Stmt) (hs : s.Worded) :
    Yields (s.exec limits (d + 1)) Completion.Worded := by
  unfold Stmt.exec
  refine (Yields.tick limits s.span).bind fun _ _ => ?_
  cases hs with
  | block hbody => exact .sequence fun s hs => h.exec s (hbody s hs)
  | expr he => exact (h.eval _ he).bind fun _ _ => .pure Completion.worded_next
  | assign he =>
    refine (h.eval _ he).bind fun v hv => ?_
    exact (Yields.assign _ hv).bind fun _ _ => .pure Completion.worded_next
  | @ifElse span cond yes no hcond hyes hno =>
    refine (h.eval _ hcond).bind fun v _ => ?_
    by_cases hv : v = 0
    · simp only [hv, if_true]
      cases no with
      | none => exact .pure Completion.worded_next
      | some no => exact h.exec no (hno no rfl)
    · simp only [hv, if_false]
      exact h.exec yes hyes
  | loop hcond hbody => exact .whileNonzero (h.eval _ hcond) (h.exec _ hbody) _
  | @ret span value hvalue =>
    cases value with
    | none => exact .pure (Completion.worded_returned (by decide))
    | some e =>
      exact (h.eval e (hvalue e rfl)).bind fun v hv => .pure (Completion.worded_returned hv)
  | stray => exact .fail _ _

theorem call_yields (h : EvaluatorYields limits d) (span : Span) (name : String)
    (args : List Expr) (hargs : ∀ a ∈ args, a.Worded) :
    Yields (callFunction limits (d + 1) span name args) InRange := by
  have hzero : InRange 0 := by decide
  unfold callFunction
  by_cases hname : name = printName
  · rw [if_pos hname]
    rcases args with _ | ⟨e, _ | ⟨e', rest⟩⟩
    · exact .fail _ _
    · refine (h.eval e (hargs e List.mem_cons_self)).bind fun v hv => ?_
      exact (Yields.emit hv).bind fun _ _ => .pure hzero
    · exact .fail _ _
  · rw [if_neg hname]
    refine (Yields.callee span name args.length).bind fun f hf => ?_
    refine (Yields.each fun e he => h.eval e (hargs e he)).bind fun vs hvs => ?_
    have hrecord : Record.Worded ⟨f.name, .ofPairs f.params vs⟩ := Table.forall_ofPairs hvs
    refine (Yields.within hrecord (h.exec f.body hf)).bind fun completion hcompletion => ?_
    cases completion with
    | next => exact .pure hzero
    | returned v => exact .pure (hcompletion v rfl)

/-- By induction on the frames: whatever the evaluator does, it yields words. -/
theorem evaluator_yields (limits : Limits) : ∀ d, EvaluatorYields limits d := by
  intro d
  induction d with
  | zero =>
    exact {
      eval := fun e _ => by rw [Expr.eval]; exact .throw .tooDeep
      exec := fun s _ => by rw [Stmt.exec]; exact .throw .tooDeep
      call := fun span name args _ => by rw [callFunction]; exact .throw .tooDeep }
  | succ d ih => exact { eval := eval_yields ih, exec := exec_yields ih, call := call_yields ih }

theorem perform_yields (limits : Limits) (d : Nat) {t : Task} (ht : t.Worded) :
    Yields (t.perform limits d) fun value => ∀ v ∈ value, InRange v := by
  have h := evaluator_yields limits d
  cases t with
  | expr e =>
    refine (h.eval e ht).bind fun v hv => .pure ?_
    rintro w ⟨⟩
    exact hv
  | stmt s => exact (h.exec s ht).bind fun completion hcompletion => .pure hcompletion
  | call span name args =>
    refine (h.call span name args ht).bind fun v hv => .pure ?_
    rintro w ⟨⟩
    exact hv

end Evaluator

end MiniLang
