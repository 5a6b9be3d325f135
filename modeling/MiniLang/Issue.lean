/-
  What is told about a program that does not get through.

  An `Issue` is the told form of every failure, whether the text, the grammar or the run is at
  fault: a message, the place if there is one, a hint if there is one, and for a run the calls that
  were live.  `Issue.report` is its text on several lines.  The causes themselves (`LexError`,
  `ParseError`, `Halt`) are typed; this module says how each of them is worded.
-/
import MiniLang.Machine.Fault
import MiniLang.Program.Parser
import MiniLang.Token.Lexer

namespace MiniLang

namespace Issue

/-- Which part of the work an issue belongs to. -/
inductive Category
  | general
  | lexical
  | grammatical
  /-- A run, with the names of the live calls, the innermost first. -/
  | runtime (calls : List String)
  deriving DecidableEq

namespace Category

/-- The heading of a report. -/
def label : Category → String
  | general => "Error"
  | lexical => "Lexical Error"
  | grammatical => "Syntax Error"
  | runtime _ => "Runtime Error"

/-- The live calls; only a run has any. -/
def calls : Category → List String
  | runtime calls => calls
  | _ => []

end Category

end Issue

/-- A failure, as it is told. -/
structure Issue where
  category : Issue.Category
  message : String
  span : Option Span
  hint : Option String
  deriving DecidableEq

namespace Issue

/-- The line of a report that names a place. -/
def placeLine (span : Span) : String :=
  "  at line " ++ span.start.line.repr ++ ", column " ++ span.start.column.repr
    ++ " (offset " ++ span.start.index.repr ++ ")"

/-- The lines of a report: heading and message, the place, the hint unless it is empty, and the
    live calls. -/
def lines (issue : Issue) : List String :=
  [issue.category.label ++ ": " ++ issue.message]
    ++ (issue.span.map placeLine).toList
    ++ ((issue.hint.filter (· ≠ "")).map ("  hint: " ++ ·)).toList
    ++ issue.category.calls.map ("  in " ++ ·)

/-- The text of a report: every line with a line feed. -/
def report (issue : Issue) : String := String.join (issue.lines.map (· ++ "\n"))

end Issue

/-! ## The wording of each cause -/

/-- A number has more digits than a number may have.  This is not an issue of the program but a
    refusal to read it. -/
structure OversizedNumber where
  digits : Nat
  deriving DecidableEq

/-- The wording of that refusal. -/
def OversizedNumber.message (n : OversizedNumber) : String :=
  "Exceeds the limit (" ++ Token.digitLimit.repr
    ++ " digits) for integer string conversion: value has " ++ n.digits.repr
    ++ " digits; use sys.set_int_max_str_digits() to increase the limit"

/-- A text without tokens is an issue, unless a number in it is oversized. -/
def LexError.told : LexError → Except OversizedNumber Issue
  | unknownCharacter c span => .ok
      { category := .lexical
        message := "Unknown character '" ++ String.singleton c ++ "' at offset "
          ++ span.start.index.repr
        span := some span
        hint := none }
  | oversizedNumber digits => .error ⟨digits⟩

namespace ParseError

/-- The token that does not fit. -/
def got : ParseError → Token
  | expected _ got => got
  | expectedExpression got => got

def message : ParseError → String
  | expected kind got => "Expected " ++ kind.label ++ " but got " ++ got.describe
  | expectedExpression got => "Expected expression but got " ++ got.describe

/-- Advice on a missing token. -/
def hint : ParseError → Option String
  | expected .semi _ => some "Statements must end with ';'."
  | expected .lbrace _ =>
    some "Function bodies start with '\x7b', e.g. func f(n) \x7b return n; \x7d"
  | expected .rbrace _ =>
    some "Blocks end with '\x7d'. Check for a missing closing brace or an extra '\x7b' earlier."
  | expected .rparen _ =>
    some "Missing ')'. Check calls and conditions like: if (cond) \x7b ... \x7d"
  | expected .lparen _ =>
    some ("Missing '('. Calls and conditions need parentheses like: print(x); "
      ++ "while (i < n) \x7b ... \x7d")
  | expected .name got =>
    if got.kind.isKeyword then
      some ("'" ++ got.lexeme ++ "' is a keyword and cannot be used as a name.")
    else none
  | _ => none

end ParseError

/-- The issue of a program that is nested too deeply to be parsed. -/
def Issue.nesting : Issue :=
  { category := .grammatical
    message := "Program is nested too deeply to parse"
    span := none
    hint := some "Split the expression into several assignments." }

def ParseHalt.issue : ParseHalt → Issue
  | wrong error =>
    { category := .grammatical, message := error.message, span := some error.got.span,
      hint := error.hint }
  | tooDeep => .nesting

/-- The issue of a run whose frames are used up; it names no place and no calls. -/
def Issue.depth : Issue :=
  { category := .runtime []
    message := "Recursion depth exhausted"
    span := none
    hint := some "Reduce the call depth of the program." }

/-- A halt is an issue, unless it only says that the run is not over. -/
def Halt.issue? : Halt → Option Issue
  | failed fault span calls => some
      { category := .runtime calls, message := fault.message, span := some span, hint := none }
  | tooDeep => some .depth
  | unfinished => none

end MiniLang
