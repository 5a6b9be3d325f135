/-
  The arguments of the command line.

  There are four options and at most one file:

      -h, --help     --cfg     --max-steps N     --gui     [source]

  1. **Looks** — every argument is first sorted by its look (`Argument.classify`): a value, an
     option, an option nobody knows, or the separator `--`, after which everything is a value.  A
     long option may be shortened as long as it stays unambiguous, and may carry a value after `=`.
     An argument that looks like a negative number or holds a space is a value.
  2. **Meaning** — the arguments are then taken from left to right (`Request.interpret`).  Help is
     given as soon as it is asked for, and the first wrong argument ends it all; arguments that
     nobody takes are only told at the end.
-/
import MiniLang.Text.Integer
import MiniLang.Text.Quoted

namespace MiniLang.CommandLine

open MiniLang.Text

/-! ## Options -/

/-- The options. -/
inductive Switch
  | help | graphs | budget | editor
  deriving DecidableEq

namespace Switch

/-- The long options, in the order in which they are listed. -/
def longNames : List (String × Switch) :=
  [("--help", help), ("--cfg", graphs), ("--max-steps", budget), ("--gui", editor)]

/-- All spellings in full. -/
def names : List (String × Switch) := ("-h", help) :: longNames

/-- How an error names an option. -/
def title : Switch → String
  | help => "-h/--help"
  | graphs => "--cfg"
  | budget => "--max-steps"
  | editor => "--gui"

end Switch

/-- What is wrong with a command line. -/
inductive UsageError
  | ambiguous (text : String) (candidates : List String)
  /-- An option got a value that it does not take. -/
  | ignoredValue (option : Switch) (value : String)
  | missingValue (option : Switch)
  | notAnInteger (option : Switch) (value : String)
  | unrecognized (texts : List String)
  deriving DecidableEq

def UsageError.message : UsageError → String
  | ambiguous text candidates =>
    "ambiguous option: " ++ text ++ " could match " ++ ", ".intercalate candidates
  | ignoredValue option value =>
    "argument " ++ option.title ++ ": ignored explicit argument " ++ quoted value
  | missingValue option => "argument " ++ option.title ++ ": expected one argument"
  | notAnInteger option value =>
    "argument " ++ option.title ++ ": invalid int value: " ++ quoted value
  | unrecognized texts => "unrecognized arguments: " ++ " ".intercalate texts

/-! ## Looks -/

/-- An argument, by its look. -/
inductive Argument
  | value (text : String)
  /-- An option, with the value after an equals sign if there is one. -/
  | option (switch : Switch) (value : Option String)
  /-- The short option of help with more behind it, an equals sign between them left out. -/
  | cluster (rest : List Char)
  | unknown (text : String)
  /-- The first `--`. -/
  | separator
  deriving DecidableEq

namespace Argument

/-- The parts before and after the first equals sign. -/
def splitEquals (cs : List Char) : List Char × Option (List Char) :=
  match cs.dropWhile (· ≠ '=') with
  | [] => (cs, none)
  | _ :: after => (cs.takeWhile (· ≠ '='), some after)

/-- Is this a row of digits, with a point before the last of them or without? -/
def looksNumeric (cs : List Char) : Bool :=
  let whole := cs.takeWhile isDigit
  match cs.dropWhile isDigit with
  | [] => !whole.isEmpty
  | ['\n'] => !whole.isEmpty
  | '.' :: part =>
    match part.dropWhile isDigit with
    | [] | ['\n'] => !(part.takeWhile isDigit).isEmpty
    | _ => false
  | _ => false

/-- An argument that begins like no option: a value if it could be one. -/
def other (text : String) : Argument :=
  match text.toList with
  | '-' :: rest => if looksNumeric rest || ' ' ∈ rest then .value text else .unknown text
  | _ => .value text

/-- An argument of two dashes and more, by the part before an equals sign: the long option that
    begins with it, if there is just one. -/
def shortened (text : String) (name : List Char) (given : Option (List Char)) :
    Except UsageError Argument :=
  match Switch.longNames.filter fun entry => name.isPrefixOf entry.1.toList with
  | [] => .ok (other text)
  | [(_, switch)] => .ok (.option switch (given.map String.ofList))
  | several => .error (.ambiguous text (several.map (·.1)))

/-- What an argument looks like. -/
def classify (text : String) : Except UsageError Argument :=
  match text.toList with
  | '-' :: c :: rest =>
    match Switch.names.lookup text with
    | some switch => .ok (.option switch none)
    | none =>
      let (name, given) := splitEquals ('-' :: c :: rest)
      match given, Switch.names.lookup (String.ofList name) with
      | some given, some switch =>
        if name = ['-', 'h'] then .ok (.cluster given)
        else .ok (.option switch (some (String.ofList given)))
      | _, _ =>
        if c = '-' then shortened text name given
        else if c = 'h' then .ok (.cluster rest)
        else .ok (other text)
  | _ => .ok (.value text)

/-- What all arguments look like. -/
def classifyAll : List String → Except UsageError (List Argument)
  | [] => .ok []
  | text :: rest =>
    if text = "--" then .ok (.separator :: rest.map .value)
    else
      match classify text with
      | .error e => .error e
      | .ok argument =>
        match classifyAll rest with
        | .error e => .error e
        | .ok arguments => .ok (argument :: arguments)

end Argument

/-! ## Meaning -/

/-- What a command line says about the number of steps. -/
inductive Budget
  | unlimited
  | steps (n : Int)
  /-- The option is there, but its value is the separator, and that is no value. -/
  | blank
  deriving DecidableEq

/-- The budget of a run; a blank one lets nothing run. -/
def Budget.limit : Budget → Option Int
  | unlimited => none
  | steps n => some n
  | blank => some 0

/-- What is to be run, and how. -/
structure Settings where
  source : Option String
  graphs : Bool
  budget : Budget
  editor : Bool
  deriving DecidableEq

/-- What a command line asks for. -/
inductive Request
  | help
  | run (settings : Settings)
  deriving DecidableEq

namespace Request

/-- What stands behind the short option of help, if it is in the way: the option may be repeated in
    one argument, and anything else there is a value, which it does not take.  An empty value comes
    from an equals sign at the end. -/
def clusterValue? : List Char → Option (List Char)
  | ['h'] => none
  | 'h' :: c :: rest => clusterValue? (c :: rest)
  | value => some value

/-- The budget that the value of the option gives.  A separator stands for no value at all. -/
def budgetOf? (value : String) : Option Budget :=
  if value = "--" then some .blank else (integer? value).map .steps

/-- Takes the arguments from left to right.  `awaiting` says whether a file is still to come, and
    `extras` are the arguments that nobody takes, the last one first. -/
def interpret (settings : Settings) (awaiting : Bool) (extras : List String) :
    List Argument → Except UsageError Request
  | [] =>
    if extras = [] then .ok (.run settings) else .error (.unrecognized extras.reverse)
  | .value text :: .separator :: rest =>
    if awaiting then interpret { settings with source := some text } false extras rest
    else interpret settings false ("--" :: text :: extras) rest
  | .value text :: rest =>
    if awaiting then interpret { settings with source := some text } false extras rest
    else interpret settings false (text :: extras) rest
  | .separator :: rest => interpret settings awaiting (if awaiting then extras else "--" :: extras) rest
  | .unknown text :: rest => interpret settings awaiting (text :: extras) rest
  | .cluster cs :: _ =>
    match clusterValue? cs with
    | some value => .error (.ignoredValue .help (String.ofList value))
    | none => .ok .help
  | .option .budget (some value) :: rest =>
    match budgetOf? value with
    | some budget => interpret { settings with budget } awaiting extras rest
    | none => .error (.notAnInteger .budget value)
  | .option .budget none :: .value value :: rest =>
    match budgetOf? value with
    | some budget => interpret { settings with budget } awaiting extras rest
    | none => .error (.notAnInteger .budget value)
  | .option .budget none :: _ => .error (.missingValue .budget)
  | .option switch (some value) :: _ => .error (.ignoredValue switch value)
  | .option .help none :: _ => .ok .help
  | .option .graphs none :: rest => interpret { settings with graphs := true } awaiting extras rest
  | .option .editor none :: rest => interpret { settings with editor := true } awaiting extras rest

/-- What some arguments ask for. -/
def ofArguments (arguments : List String) : Except UsageError Request :=
  match Argument.classifyAll arguments with
  | .error e => .error e
  | .ok looks => interpret ⟨none, false, .unlimited, false⟩ true [] looks

end Request

end MiniLang.CommandLine
