/-
  What can go wrong while a program runs, and how it is told.

  Eight causes stop a run at a place in the program; the last three arise only from trees built by
  hand.  The two others, exhausted frames and an exhausted clock, belong to the machine and not to
  the program, and are told apart in `Halt`.
-/
import MiniLang.Token

namespace MiniLang

/-- Why a running program fails. -/
inductive Fault
  | divisionByZero
  | undefinedVariable (name : String)
  | unknownFunction (name : String)
  | arityMismatch (name : String) (params args : Nat)
  | printArity (args : Nat)
  | stepLimit
  | unsupportedStatement (label : String)
  | unsupportedExpression (label : String)
  | unsupportedOperator (op : Token.Kind)
  deriving DecidableEq

namespace Fault

/-- What a failure is called in a report. -/
def message : Fault → String
  | divisionByZero => "Division by zero"
  | undefinedVariable name => "Undefined variable: " ++ name
  | unknownFunction name => "Unknown function: " ++ name
  | arityMismatch name params args =>
    "Arity mismatch for " ++ name ++ ": expected " ++ params.repr ++ " arguments, got " ++ args.repr
  | printArity args => "print takes exactly 1 argument, got " ++ args.repr
  | stepLimit => "Step limit exceeded (possible infinite loop)."
  | unsupportedStatement label => "Unsupported statement: " ++ label
  | unsupportedExpression label => "Unsupported expression: " ++ label
  | unsupportedOperator op => "Unsupported binary operator: " ++ op.label

end Fault

/-- Why a run stops before its program is done. -/
inductive Halt
  /-- The program failed at a place, inside some functions, the innermost first. -/
  | failed (fault : Fault) (span : Span) (calls : List String)
  /-- The calls and the tree are nested more deeply than the frames allow. -/
  | tooDeep
  /-- The clock ran out although the program was given no budget: the run is not over. -/
  | unfinished
  deriving DecidableEq

end MiniLang
