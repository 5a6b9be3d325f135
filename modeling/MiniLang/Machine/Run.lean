/-
  Running a whole program, and stepping through one.

  A run starts from an empty state, makes the functions known, and executes the body inside a
  record of its own, named `<main>`.  What it leaves behind is the state and, unless the body came
  to its end, the reason why it stopped; a return at the top ends the program like its last
  statement does.

  `Program.trail` executes the statements at the top of a program one by one in one state, and goes
  on after one that returns or fails.
-/
import MiniLang.Machine.Eval

namespace MiniLang

/-- What a run leaves behind. -/
structure Outcome where
  machine : Machine
  halt : Option Halt

namespace Outcome

def output (o : Outcome) : String := o.machine.output

def steps (o : Outcome) : Nat := o.machine.steps

def globals (o : Outcome) : Table Int := o.machine.globalVars

end Outcome

/-- The record that a program's own statements run in. -/
def mainRecord : Record := ⟨"<main>", []⟩

/-- A run of a program. -/
def Program.run (limits : Limits) (program : Program) : Outcome :=
  let start := Machine.empty.define program.functions
  match Eval.within mainRecord (program.body.exec limits limits.frames) start with
  | .ok _ m => ⟨m, none⟩
  | .error halt m => ⟨m, some halt⟩

/-- A statement executed by itself: how it ended, and the state it left. -/
structure Stop where
  ending : Except Halt Completion
  machine : Machine

/-- Executes statements one by one, whatever becomes of each. -/
def Stmt.trail (limits : Limits) : List Stmt → Machine → List Stop
  | [], _ => []
  | s :: rest, m =>
    match s.exec limits limits.frames m with
    | .ok completion m => ⟨.ok completion, m⟩ :: trail limits rest m
    | .error halt m => ⟨.error halt, m⟩ :: trail limits rest m

/-- Executes the statements at the top of a program one by one; the block around them is not
    executed, and counts no step. -/
def Program.trail (limits : Limits) (program : Program) : List Stop :=
  let start := Machine.empty.define program.functions
  Stmt.trail limits program.body.inside { start with stack := [mainRecord] }

end MiniLang
