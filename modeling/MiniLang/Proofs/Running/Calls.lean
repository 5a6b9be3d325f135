/-
  The live calls are left as they were found.

  1. **Outlines** — `Machine.outline`: of every live call the function and the names that its
     record binds, the innermost call first.  It says nothing of the values.
  2. **Names at home** — `Machine.home?` numbers the record that a name resolves to, and reading
     and assigning a name are reading and writing that record, or the globals if there is none.
     The number is a matter of the outline.
  3. **The evaluator** — no evaluation changes the outline, whichever way it ends; so no live call
     is left over at the end of a run, and a statement finds the records that the statements
     before it found, also after one that failed.
-/
import MiniLang.Proofs.Budget.Truncation
import MiniLang.Proofs.Running.History

namespace MiniLang

/-! ## Outlines -/

/-- The names of a table, in their order. -/
def Table.names {α : Type} (t : Table α) : List String := t.map (·.1)

/-- A live call without the values of its bindings. -/
def Record.outline (r : Record) : String × List String := (r.function, r.locals.names)

/-- The live calls without the values of their bindings, the innermost first. -/
def Machine.outline (m : Machine) : List (String × List String) := m.stack.map Record.outline

namespace Table

variable {α : Type}

/-- A table has an entry for the names in it. -/
theorem has_eq_contains : ∀ (t : Table α) (name : String), t.has name = t.names.contains name := by
  intro t name
  induction t with
  | nil => rfl
  | cons entry rest ih =>
    obtain ⟨key, a⟩ := entry
    by_cases h : key = name
    · subst h
      simp [has, get?, names]
    · have hrest : has ((key, a) :: rest) name = has rest name := by simp [has, get?, h]
      rw [hrest, ih]
      simp [names, Ne.symm h]

theorem has_iff_mem (t : Table α) (name : String) : t.has name = true ↔ name ∈ t.names := by
  rw [has_eq_contains, List.contains_iff_mem]

/-- Setting a name that is there adds none. -/
theorem names_set : ∀ {t : Table α} {name : String} (a : α), t.has name = true →
    (t.set name a).names = t.names := by
  intro t name a h
  induction t with
  | nil => cases h
  | cons entry rest ih =>
    obtain ⟨key, b⟩ := entry
    by_cases hkey : key = name
    · simp [set, names, hkey]
    · have hrest : has rest name = true := by simpa [has, get?, hkey] using h
      have hnames : (set rest name a).map (·.1) = rest.map (·.1) := ih hrest
      simp [set, names, hkey, hnames]

end Table

namespace Machine

/-- Rebinding a name changes a value only. -/
theorem outline_rebindIn : ∀ {records rebound : List Record} {name : String} {v : Int},
    rebindIn records name v = some rebound →
    rebound.map Record.outline = records.map Record.outline := by
  intro records
  induction records with
  | nil => exact nofun
  | cons record rest ih =>
    intro rebound name v h
    rw [rebindIn] at h
    by_cases hbound : record.locals.has name = true
    · rw [if_pos hbound] at h
      cases h
      have houtline : Record.outline { record with locals := record.locals.set name v } =
          record.outline := by
        rw [Record.outline, Record.outline, Table.names_set v hbound]
      rw [List.map_cons, List.map_cons, houtline]
    · rw [if_neg hbound] at h
      obtain ⟨rest', hrest, rfl⟩ := Option.map_eq_some_iff.mp h
      rw [List.map_cons, List.map_cons, ih hrest]

theorem outline_assign (m : Machine) (name : String) (v : Int) :
    (m.assign name v).outline = m.outline := by
  unfold assign
  cases h : rebindIn m.stack name v with
  | none => rfl
  | some stack => exact outline_rebindIn h

/-- Nothing that an evaluation does changes the outline: a call takes the record with it that it
    came with. -/
theorem lasting_outline : Lasting fun m m' => m'.outline = m.outline where
  refl := fun _ => rfl
  trans := fun h₁ h₂ => h₂.trans h₁
  step := fun _ => rfl
  assign := outline_assign
  emit := fun _ _ => rfl
  call := by
    intro m record m' h
    have hstack : m'.stack.map Record.outline = record.outline :: m.outline := h
    show m'.stack.tail.map Record.outline = m.outline
    rw [List.map_tail, hstack, List.tail_cons]

/-! ## Names at home -/

/-- The number of the live call that a name resolves to, counted from the innermost one; none if
    the name is global. -/
def home? (m : Machine) (name : String) : Option Nat :=
  m.stack.findIdx? fun record => record.locals.has name

/-- Reads a name in the record with a number, or globally. -/
def readAt (m : Machine) (home : Option Nat) (name : String) : Option Int :=
  match home with
  | some i => m.stack[i]?.bind fun record => record.locals.get? name
  | none =>
    match m.globals.get? name with
    | some (.variable v) => some v
    | _ => none

/-- Writes a name in the record with a number, or globally. -/
def assignAt (m : Machine) (home : Option Nat) (name : String) (v : Int) : Machine :=
  match home with
  | some i =>
    { m with stack := m.stack.modify i fun r => { r with locals := r.locals.set name v } }
  | none => { m with globals := m.globals.set name (.variable v) }

/-- Which record a name resolves to shows in the outline. -/
theorem home?_eq_of_outline {m m' : Machine} (h : m'.outline = m.outline) (name : String) :
    m'.home? name = m.home? name := by
  have hhome : ∀ m : Machine, m.home? name = m.outline.findIdx? fun o => o.2.contains name := by
    intro m
    rw [home?, outline, List.findIdx?_map]
    congr 1
    funext record
    exact Table.has_eq_contains record.locals name
  rw [hhome m', hhome m, h]

theorem localIn_eq : ∀ (records : List Record) (name : String),
    localIn records name = (records.findIdx? fun r => r.locals.has name).bind fun i =>
      records[i]?.bind fun r => r.locals.get? name := by
  intro records name
  induction records with
  | nil => rfl
  | cons record rest ih =>
    rw [localIn, List.findIdx?_cons, Table.has]
    cases h : record.locals.get? name with
    | some v => simp [h]
    | none =>
      simp only [ih, Option.isSome_none, Bool.false_eq_true, if_false, Option.bind_map,
        Function.comp_def, List.getElem?_cons_succ]

theorem rebindIn_eq : ∀ (records : List Record) (name : String) (v : Int),
    rebindIn records name v = (records.findIdx? fun r => r.locals.has name).map fun i =>
      records.modify i fun r => { r with locals := r.locals.set name v } := by
  intro records name v
  induction records with
  | nil => rfl
  | cons record rest ih =>
    rw [rebindIn, List.findIdx?_cons]
    by_cases h : record.locals.has name = true
    · simp [h]
    · simp [h, ih, Function.comp_def]

/-- Reading a name is reading it where it is at home. -/
theorem read?_eq (m : Machine) (name : String) : m.read? name = m.readAt (m.home? name) name := by
  rw [read?, localIn_eq, home?]
  cases hhome : m.stack.findIdx? fun r => r.locals.has name with
  | none => rfl
  | some i =>
    -- the record with that number binds the name, so the globals are not asked
    obtain ⟨hi, hbound, -⟩ := List.findIdx?_eq_some_iff_getElem.mp hhome
    obtain ⟨v, hv⟩ := Option.isSome_iff_exists.mp hbound
    simp [readAt, List.getElem?_eq_getElem hi, hv]

/-- Assigning a name is writing it where it is at home. -/
theorem assign_eq (m : Machine) (name : String) (v : Int) :
    m.assign name v = m.assignAt (m.home? name) name v := by
  rw [assign, rebindIn_eq, home?]
  cases m.stack.findIdx? fun r => r.locals.has name with
  | none => rfl
  | some i => rfl

end Machine

/-! ## The evaluator -/

/-- A statement that fails leaves a state to go on from like any other. -/
theorem trail_cons (limits : Limits) (s : Stmt) (rest : List Stmt) (m : Machine) :
    ∃ ending, Stmt.trail limits (s :: rest) m =
      ⟨ending, (s.exec limits limits.frames).after m⟩ ::
        Stmt.trail limits rest ((s.exec limits limits.frames).after m) := by
  rw [Stmt.trail, Eval.after]
  cases s.exec limits limits.frames m with
  | ok completion m' => exact ⟨_, rfl⟩
  | error halt m' => exact ⟨_, rfl⟩

/-- Every statement that is executed by itself leaves the outline that the first one found. -/
theorem outline_trail {limits : Limits} : ∀ (ss : List Stmt) (m : Machine),
    ∀ stop ∈ Stmt.trail limits ss m, stop.machine.outline = m.outline := by
  intro ss
  induction ss with
  | nil => exact nofun
  | cons s rest ih =>
    intro m stop hstop
    have hkept : ((s.exec limits limits.frames).after m).outline = m.outline :=
      (evaluator_keeps Machine.lasting_outline limits limits.frames).exec s m
    obtain ⟨ending, htrail⟩ := trail_cons limits s rest m
    rw [htrail] at hstop
    rcases List.mem_cons.mp hstop with rfl | hstop
    · exact hkept
    · exact (ih _ stop hstop).trans hkept

/-- A run ends with no call live. -/
theorem stack_run (limits : Limits) (program : Program) :
    (program.run limits).machine.stack = [] := by
  have hkept : (program.run limits).machine.outline = program.start.outline := by
    rw [Program.run_machine]
    exact Eval.Keeps.within Machine.lasting_outline mainRecord
      ((evaluator_keeps Machine.lasting_outline limits limits.frames).exec program.body) _
  exact List.map_eq_nil_iff.mp hkept

/-- **Calls are left as they were found.**  Whichever way a statement or an expression ends, the
    same calls are live afterwards, and each binds the same names.  A run therefore ends with none,
    and whatever statements were executed by themselves, and however they ended, the next one reads
    and assigns every name in the record that had it at first. -/
theorem outline_kept (limits : Limits) (d : Nat) (m : Machine) :
    (∀ s : Stmt, ((s.exec limits d).after m).outline = m.outline) ∧
    (∀ e : Expr, ((e.eval limits d).after m).outline = m.outline) ∧
    (∀ program : Program, (program.run limits).machine.stack = []) ∧
    (∀ ss, ∀ stop ∈ Stmt.trail limits ss m, stop.machine.outline = m.outline ∧ ∀ name v,
      stop.machine.read? name = stop.machine.readAt (m.home? name) name ∧
      stop.machine.assign name v = stop.machine.assignAt (m.home? name) name v) := by
  have hkeeps := evaluator_keeps Machine.lasting_outline limits d
  refine ⟨fun s => hkeeps.exec s m, fun e => hkeeps.eval e m, stack_run limits, ?_⟩
  intro ss stop hstop
  have hkept : stop.machine.outline = m.outline := outline_trail ss m stop hstop
  refine ⟨hkept, ?_⟩
  intro name v
  rw [← Machine.home?_eq_of_outline hkept name]
  exact ⟨Machine.read?_eq stop.machine name, Machine.assign_eq stop.machine name v⟩

end MiniLang
