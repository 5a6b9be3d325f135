/-
  Reading a name and writing it meet at one place.

  Two walks over the live calls look for a name, one to read it and one to write it, and a table for
  variables and functions alike lies behind both.

  1. **Places** — a name has a place in every live call and one among the globals, and
     `m.entryAt place name` is what stands there.  `m.Resolves name place`: the place is in the
     innermost call that binds the name, or among the globals if none does.
  2. **One change** — an assignment sets what stands at that place and nothing else
     (`entryAt_assign`).  Neither the place nor what any other name resolves to moves by it, so what
     reads and calls give afterwards can be read off the entries.
-/
import MiniLang.Proofs.Running.CallChain

namespace MiniLang

namespace Machine

/-! ## Places -/

/-- What a name stands for in the live call with a number, counted from the innermost one, or among
    the globals. -/
def entryAt (m : Machine) (place : Option Nat) (name : String) : Option Symbol :=
  match place with
  | some i => m.stack[i]?.bind fun record => (record.locals.get? name).map .variable
  | none => m.globals.get? name

/-- The place is in the innermost call that binds the name, or among the globals if none does. -/
def Resolves (m : Machine) (name : String) : Option Nat → Prop
  | some i => (∃ record, m.stack[i]? = some record ∧ name ∈ record.locals.names) ∧
      ∀ j < i, ∀ record, m.stack[j]? = some record → name ∉ record.locals.names
  | none => ∀ record ∈ m.stack, name ∉ record.locals.names

theorem resolves_home? (m : Machine) (name : String) : m.Resolves name (m.home? name) := by
  cases hhome : m.home? name with
  | none =>
    intro record hrecord hname
    have hunbound := List.findIdx?_eq_none_iff.mp hhome record hrecord
    rw [(Table.has_iff_mem _ _).mpr hname] at hunbound
    cases hunbound
  | some i =>
    obtain ⟨hi, hbound, hinner⟩ := List.findIdx?_eq_some_iff_getElem.mp hhome
    refine ⟨⟨m.stack[i], List.getElem?_eq_getElem hi, (Table.has_iff_mem _ _).mp hbound⟩, ?_⟩
    intro j hj record hrecord hname
    obtain ⟨_, rfl⟩ := List.getElem?_eq_some_iff.mp hrecord
    exact hinner j hj ((Table.has_iff_mem _ _).mpr hname)

/-- A read looks at the entry of a place, and takes it if it is a variable. -/
theorem readAt_eq (m : Machine) (place : Option Nat) (name : String) :
    m.readAt place name =
      match m.entryAt place name with
      | some (.variable v) => some v
      | _ => none := by
  cases place with
  | none => rfl
  | some i =>
    rw [readAt, entryAt]
    cases hrecord : m.stack[i]? with
    | none => rfl
    | some record =>
      simp only [Option.bind_some]
      cases record.locals.get? name <;> rfl

/-- What a name calls is the entry among the globals, if it is a function. -/
theorem callee?_eq (m : Machine) (name : String) :
    m.callee? name =
      match m.entryAt none name with
      | some (.function f) => some f
      | _ => none := rfl

/-! ## One change -/

/-- Writing a name at the place that it resolves to sets the entry there, and no other. -/
theorem entryAt_assignAt {m : Machine} {x : String} {home : Option Nat} (h : m.Resolves x home)
    (v : Int) (place : Option Nat) (y : String) :
    (m.assignAt home x v).entryAt place y =
      if place = home ∧ y = x then some (.variable v) else m.entryAt place y := by
  cases home with
  | none =>
    cases place with
    | none =>
      have hentry : (m.assignAt none x v).entryAt none y = (m.globals.set x (.variable v)).get? y :=
        rfl
      rw [hentry, Table.get?_set]
      simp only [true_and]
      rfl
    | some j => exact (if_neg fun hplace => Option.some_ne_none j hplace.1).symm
  | some i =>
    cases place with
    | none => exact (if_neg fun hplace => Option.some_ne_none i hplace.1.symm).symm
    | some j =>
      obtain ⟨⟨record, hrecord, -⟩, -⟩ := h
      simp only [entryAt, assignAt, List.getElem?_modify, Option.some.injEq]
      by_cases hj : i = j
      · subst hj
        simp only [hrecord, if_pos, Option.map_eq_map, Option.map_some, Option.bind_some,
          Table.get?_set, true_and]
        by_cases hy : y = x
        · simp only [if_pos hy, Option.map_some]
        · simp only [if_neg hy]
      · rw [if_neg fun hplace => hj hplace.1.symm]
        simp only [if_neg hj, Option.map_eq_map, Option.map_id']

theorem home?_assign (m : Machine) (x : String) (v : Int) (y : String) :
    (m.assign x v).home? y = m.home? y := home?_eq_of_outline (outline_assign m x v) y

theorem entryAt_assign (m : Machine) (x : String) (v : Int) (place : Option Nat) (y : String) :
    (m.assign x v).entryAt place y =
      if place = m.home? x ∧ y = x then some (.variable v) else m.entryAt place y := by
  rw [assign_eq]
  exact entryAt_assignAt (resolves_home? m x) v place y

theorem read?_assign_self (m : Machine) (x : String) (v : Int) :
    (m.assign x v).read? x = some v := by
  rw [read?_eq, home?_assign, readAt_eq, entryAt_assign, if_pos ⟨rfl, rfl⟩]

theorem read?_assign_of_ne (m : Machine) {x y : String} (hne : y ≠ x) (v : Int) :
    (m.assign x v).read? y = m.read? y := by
  rw [read?_eq, home?_assign, readAt_eq, entryAt_assign, if_neg fun hplace => hne hplace.2,
    read?_eq, readAt_eq]

/-- A global entry is a variable once it is assigned, whatever it was. -/
theorem callee?_assign_eq (m : Machine) (x : String) (v : Int) (name : String) :
    (m.assign x v).callee? name =
      if m.home? x = none ∧ name = x then none else m.callee? name := by
  rw [callee?_eq, entryAt_assign, callee?_eq]
  by_cases hplace : none = m.home? x ∧ name = x
  · rw [if_pos hplace, if_pos ⟨hplace.1.symm, hplace.2⟩]
  · rw [if_neg hplace, if_neg fun h => hplace ⟨h.1.symm, h.2⟩]

/-- Of two assignments of one name, the second one counts. -/
theorem assign_assign (m : Machine) (x : String) (v w : Int) :
    (m.assign x v).assign x w = m.assign x w := by
  rw [assign_eq (m.assign x v), home?_assign, assign_eq m x v, assign_eq m x w]
  cases m.home? x with
  | none => simp only [assignAt, Table.set_set]
  | some i =>
    simp only [assignAt, List.modify_modify_eq]
    congr 2
    funext record
    exact congrArg (Record.mk record.function) (Table.set_set record.locals x v w)

/-- What the assignment of a name makes of a state, at the place that the name resolves to. -/
structure Assigned (m : Machine) (x : String) (v : Int) (home : Option Nat) (m' : Machine) :
    Prop where
  resolves : m.Resolves x home
  /-- One entry is another one, created or replaced. -/
  entries : ∀ place y, m'.entryAt place y =
    if place = home ∧ y = x then some (.variable v) else m.entryAt place y
  /-- The same calls are live, and each binds the same names. -/
  names : m'.outline = m.outline
  /-- The name reads as its value. -/
  own : ∀ span, Eval.read span x m' = .ok v m'
  /-- Any other name reads as it did, or fails as it did. -/
  others : ∀ span y, y ≠ x →
    (∃ w, Eval.read span y m = .ok w m ∧ Eval.read span y m' = .ok w m') ∨
    ∃ halt, Eval.read span y m = .error halt m ∧ Eval.read span y m' = .error halt m'
  /-- Every name calls the function that it called, except that the name itself calls none if it is
      global. -/
  callable : ∀ name, m'.callee? name = if home = none ∧ name = x then none else m.callee? name
  printed : m'.printed = m.printed
  steps : m'.steps = m.steps
  /-- It is as if the value had never been there once the name is assigned again. -/
  again : ∀ w, m'.assign x w = m.assign x w

end Machine

open Machine in
/-- **Reads and writes agree on where a name is.**  In every state, whatever calls are live and
    whatever the globals are, an assignment goes through and changes one binding: that of the
    innermost call that binds the name, or the global one if none does.  Afterwards the name reads as
    the value, any other name reads or fails as before, and no function is lost but a global one of
    that name. -/
theorem reads_and_writes_agree (m : Machine) (x : String) (v : Int) :
    ∃ home m', Eval.assign x v m = .ok () m' ∧ m.Assigned x v home m' := by
  refine ⟨m.home? x, m.assign x v, rfl, ?_⟩
  have hsame : (m.assign x v).printed = m.printed ∧ (m.assign x v).steps = m.steps := by
    rw [assign_eq]
    cases m.home? x <;> exact ⟨rfl, rfl⟩
  refine
    { resolves := resolves_home? m x
      entries := entryAt_assign m x v
      names := outline_assign m x v
      own := ?_
      others := ?_
      callable := callee?_assign_eq m x v
      printed := hsame.1
      steps := hsame.2
      again := assign_assign m x v }
  · intro span
    simp only [Eval.read, read?_assign_self]
  · intro span y hne
    simp only [Eval.read, read?_assign_of_ne m hne, Eval.fail,
      calls_eq_of_outline (outline_assign m x v)]
    cases m.read? y with
    | some w => exact .inl ⟨w, rfl, rfl⟩
    | none => exact .inr ⟨_, rfl, rfl⟩

/-- Two calls bind `a`, and the outer one binds `f`, which is also a function.  So `f` is assigned
    there and can still be called, while `g` cannot once it is assigned. -/
example :
    let function := fun name => Symbol.function ⟨.nowhere, name, [], .block .nowhere []⟩
    let m : Machine := ⟨[("f", function "f"), ("g", function "g")],
      [⟨"inner", [("a", 1)]⟩, ⟨"outer", [("f", 2), ("a", 3)]⟩, mainRecord], #[], 0⟩
    (m.assign "a" 9).stack.map (·.locals) = [[("a", 9)], [("f", 2), ("a", 3)], []] ∧
      (m.assign "f" 9).stack.map (·.locals) = [[("a", 1)], [("f", 9), ("a", 3)], []] ∧
      ((m.assign "f" 9).callee? "f").isSome = true ∧
      (m.assign "g" 9).read? "g" = some 9 ∧ ((m.assign "g" 9).callee? "g").isSome = false := by
  decide

end MiniLang
