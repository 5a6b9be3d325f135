/-
  Compiling and running a text, and the text that comes of it.

  `Report.ofSource` is the one way from a source to what is shown of it; the command line and the
  web service both go through it.  The text shown is the remarks that are no errors, then what the
  program printed, then the report of the issue; if all three are empty it says so, so it is never
  empty.
-/
import MiniLang.Compilation
import MiniLang.Machine.Run

namespace MiniLang

/-- What came of compiling and running a text. -/
structure Report where
  compilation : Compilation
  output : String
  steps : Nat
  globals : Table Int
  error : Option Issue

/-- The limits that hold where none are asked for: a patience of `2^62` steps, which no run outlasts,
    and frames for some thousands of nested calls. -/
def Limits.standard (budget : Option Int) : Limits :=
  { budget, patience := 0x4000000000000000, frames := 50000 }

namespace Report

/-- What is shown where there is nothing to show. -/
def noOutput : String := "(no output)\n"

/-- A text that was compiled, and run if it made a program. -/
def ofCompilation (limits : Limits) (compilation : Compilation) : Report :=
  match compilation.program with
  | none => ⟨compilation, "", 0, [], compilation.error⟩
  | some program =>
    let outcome := program.run limits
    ⟨compilation, outcome.output, outcome.steps, outcome.globals, outcome.halt.bind Halt.issue?⟩

/-- Compiles and runs a text. -/
def ofSource (limits : Limits) (graphs : Bool) (source : String) : Except OversizedNumber Report :=
  (Compilation.ofSource limits.frames graphs source).map (ofCompilation limits)

/-- The text that is shown. -/
def text (r : Report) : String :=
  let body := r.compilation.diagnostics.infoText ++ r.output
    ++ (r.error.map Issue.report).getD ""
  if body = "" then noOutput else body

/-- The number of steps as it is shown: none where the frames were used up, because there it
    depends on how many there were. -/
def shownSteps (r : Report) : Option Nat :=
  if r.error = some .depth then none else some r.steps

end Report

end MiniLang
