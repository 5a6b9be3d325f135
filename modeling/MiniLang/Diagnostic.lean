/-
  Remarks on a program, in the order in which they are made.
-/
import MiniLang.Position

namespace MiniLang

/-- How serious a remark is. -/
inductive Severity
  | info | warning | error
  deriving DecidableEq

/-- The name of a severity. -/
def Severity.label : Severity → String
  | info => "INFO"
  | warning => "WARNING"
  | error => "ERROR"

/-- The severity of a given name. -/
def Severity.ofLabel? (s : String) : Option Severity :=
  [Severity.info, .warning, .error].find? fun severity => severity.label == s

/-- A remark on a program. -/
structure Diagnostic where
  severity : Severity
  message : String
  span : Option Span
  hint : Option String
  deriving DecidableEq

/-- Remarks in the order in which they were made. -/
abbrev Diagnostics := List Diagnostic

namespace Diagnostics

/-- Makes one more remark. -/
def report (ds : Diagnostics) (d : Diagnostic) : Diagnostics := ds ++ [d]

/-- The messages of all remarks that are no errors, one on a line. -/
def infoText (ds : Diagnostics) : String :=
  String.join ((ds.filter (·.severity ≠ .error)).map (·.message ++ "\n"))

end Diagnostics

end MiniLang
