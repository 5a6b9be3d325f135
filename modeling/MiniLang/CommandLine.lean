/-
  The command line: what is written, and with which code it ends.

  `respond` reads at most one file, through a reader that it is given, and otherwise decides
  everything by the arguments.  Where no file is named it runs the demonstration program, and says
  so first.  The code is one exactly if the report has an issue; a wrong command line ends with
  two, and help with zero.
-/
import MiniLang.CommandLine.Arguments
import MiniLang.Demo
import MiniLang.Report
import MiniLang.Text.Newline

namespace MiniLang.CommandLine

/-! ## What is written about the program itself -/

def usage : String :=
  "usage: mini-interpreter [-h] [--cfg] [--max-steps MAX_STEPS] [--gui] [source]\n"

def help : String :=
  usage
    ++ "\n"
    ++ "Run a mini-language program and print its output.\n"
    ++ "\n"
    ++ "positional arguments:\n"
    ++ "  source                source file to run (defaults to the built-in demo)\n"
    ++ "\n"
    ++ "options:\n"
    ++ "  -h, --help            show this help message and exit\n"
    ++ "  --cfg                 print a control-flow-graph summary per function\n"
    ++ "  --max-steps MAX_STEPS\n"
    ++ "                        abort after this many executed statements\n"
    ++ "  --gui                 open the desktop editor instead\n"

/-- What is written before the demonstration program runs. -/
def demoNotice : String :=
  "Usage: mini-interpreter <sourcefile>\nNo file provided; running built-in demo.\n\n"

/-! ## Answers -/

/-- Why a file cannot be read. -/
inductive FileError
  | notFound
  | isDirectory
  /-- Its bytes are no text in UTF-8. -/
  | notText
  deriving DecidableEq

/-- How a call of the program ends. -/
inductive Response
  | exit (code : Nat) (stdout stderr : String)
  /-- There is no screen to open the editor on. -/
  | noEditor
  | unreadable (error : FileError)
  /-- There is a program, but the number of steps to run it with was left blank. -/
  | blankBudget
  | oversizedNumber (n : OversizedNumber)
  deriving DecidableEq

/-- What is told where there is no editor. -/
def noEditorMessage : String :=
  "Tkinter is not available in this environment. Run without --gui or use the FastAPI web app."

/-- Runs a text, after something was already written.  A blank budget is in the way only of a text
    that makes a program. -/
def execute (settings : Settings) (notice source : String) : Response :=
  match Report.ofSource (.standard settings.budget.limit) settings.graphs source with
  | .error n => .oversizedNumber n
  | .ok report =>
    if settings.budget = .blank ∧ report.compilation.program.isSome then .blankBudget
    else .exit (if report.error.isSome then 1 else 0) (notice ++ report.text) ""

/-- Runs the text that a file holds. -/
def executeFile (settings : Settings) : Except FileError ByteArray → Response
  | .error e => .unreadable e
  | .ok bytes =>
    match Text.ofBytes? bytes with
    | none => .unreadable .notText
    | some source => execute settings "" source

/-- Answers some arguments, with a way to read the file that they may name.  An empty name is no
    name. -/
def respond {m : Type → Type} [Monad m] (read : String → m (Except FileError ByteArray))
    (arguments : List String) : m Response :=
  match Request.ofArguments arguments with
  | .error e => pure (.exit 2 "" (usage ++ "mini-interpreter: error: " ++ e.message ++ "\n"))
  | .ok .help => pure (.exit 0 help "")
  | .ok (.run settings) =>
    if settings.editor then pure .noEditor
    else
      match settings.source with
      | none | some "" => pure (execute settings demoNotice demoProgram)
      | some path => do return executeFile settings (← read path)

end MiniLang.CommandLine
