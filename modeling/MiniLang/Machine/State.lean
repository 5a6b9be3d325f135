/-
  The state of a run, and how names resolve in it.

  Scoping is flat and dynamic.  A name that is read stands for its binding in the innermost live
  record that has one, and otherwise for the global variable; a name that is written rebinds the
  same place, and where no record binds it, it becomes a global variable, also in place of a
  function of that name.  Nothing but the call of a function introduces a local.

  * `Machine.read?` and `Machine.assign` walk the same records in the same order.
  * `Machine.output` is the text of what was printed, one line for each value.
-/
import MiniLang.Machine.Table
import MiniLang.Program

namespace MiniLang

/-- What a global name stands for. -/
inductive Symbol
  | variable (value : Int)
  | function (definition : FunctionDef)

/-- A live call: the function and what its parameters are bound to. -/
structure Record where
  function : String
  locals : Table Int
  deriving DecidableEq

/-- Everything a run changes. -/
structure Machine where
  globals : Table Symbol
  /-- The live calls, the innermost first. -/
  stack : List Record
  /-- The values printed so far, the first one first. -/
  printed : Array Int
  /-- The number of statements begun so far. -/
  steps : Nat

namespace Machine

/-- The state before anything is defined or done. -/
def empty : Machine := ⟨[], [], #[], 0⟩

/-- Makes some functions known; of two with one name, the later one. -/
def define (m : Machine) (functions : List FunctionDef) : Machine :=
  { m with globals := functions.foldl (fun t f => t.set f.name (.function f)) m.globals }

/-- The names of the live calls, the innermost first. -/
def calls (m : Machine) : List String := m.stack.map (·.function)

/-! ## Names -/

/-- The binding of a name in the innermost record that has one. -/
def localIn : List Record → String → Option Int
  | [], _ => none
  | record :: rest, name =>
    match record.locals.get? name with
    | some v => some v
    | none => localIn rest name

/-- Changes the binding of a name in the innermost record that has one; `none` if none has. -/
def rebindIn : List Record → String → Int → Option (List Record)
  | [], _, _ => none
  | record :: rest, name, v =>
    if record.locals.has name then some ({ record with locals := record.locals.set name v } :: rest)
    else (rebindIn rest name v).map (record :: ·)

/-- What a name stands for when it is read. -/
def read? (m : Machine) (name : String) : Option Int :=
  match localIn m.stack name with
  | some v => some v
  | none =>
    match m.globals.get? name with
    | some (.variable v) => some v
    | _ => none

/-- Gives a name a value: in the innermost record that binds it, and otherwise globally. -/
def assign (m : Machine) (name : String) (v : Int) : Machine :=
  match rebindIn m.stack name v with
  | some stack => { m with stack }
  | none => { m with globals := m.globals.set name (.variable v) }

/-- The function that a name calls. -/
def callee? (m : Machine) (name : String) : Option FunctionDef :=
  match m.globals.get? name with
  | some (.function f) => some f
  | _ => none

/-- The global variables, without the functions. -/
def globalVars (m : Machine) : Table Int :=
  m.globals.filterMap fun | (name, .variable v) => some (name, v) | (_, .function _) => none

/-! ## Output -/

/-- The line that printing a value writes. -/
def line (v : Int) : String := v.repr ++ "\n"

/-- Everything printed so far. -/
def output (m : Machine) : String := m.printed.foldl (fun text v => text ++ line v) ""

end Machine

end MiniLang
