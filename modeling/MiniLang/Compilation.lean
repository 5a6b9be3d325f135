/-
  From a source text to a program with remarks, or to the issue that is in the way.

  A compilation comes out in one of three ways: the text has no tokens, its tokens make no program,
  or there is a program.  In the first two the only remark is the error itself; in the third, every
  function that is defined again is remarked on, and on request the size of every function's graph.
  Only an oversized number makes a text not compile at all.
-/
import MiniLang.Diagnostic
import MiniLang.Issue
import MiniLang.Program.FlowGraph

namespace MiniLang

/-- What compiling a text yields. -/
structure Compilation where
  /-- The tokens with the end marker; none if the text has no tokens. -/
  tokens : List Token
  program : Option Program
  diagnostics : Diagnostics
  error : Option Issue

namespace Compilation

/-- The remark that an issue is in the way. -/
def errorRemark (issue : Issue) : Diagnostic :=
  ⟨.error, issue.message, issue.span, issue.hint⟩

/-- One remark for every function whose name was defined before, after some names already were. -/
def duplicates (seen : List String) : List FunctionDef → Diagnostics
  | [] => []
  | f :: rest =>
    if f.name ∈ seen then
      ⟨.warning, "Function '" ++ f.name
          ++ "' is defined more than once; the last definition wins.", some f.span, none⟩
        :: duplicates seen rest
    else duplicates (f.name :: seen) rest

/-- The remark on the size of a function's graph. -/
def graphRemark (f : FunctionDef) : Diagnostic :=
  ⟨.info, "[CFG] Function " ++ f.name ++ " has " ++ (FlowGraph.ofFunction f).length.repr ++ " nodes",
    some f.span, none⟩

/-- A text that does not get through, with the tokens there are. -/
def failed (tokens : List Token) (issue : Issue) : Compilation :=
  ⟨tokens, none, [errorRemark issue], some issue⟩

/-- A program, with what is to be remarked on it. -/
def succeeded (graphs : Bool) (tokens : List Token) (program : Program) : Compilation :=
  let remarks := duplicates [] program.functions
    ++ if graphs then program.functions.map graphRemark else []
  ⟨tokens, some program, remarks, none⟩

/-- Compiles a text, within a number of frames for its nesting. -/
def ofSource (frames : Nat) (graphs : Bool) (source : String) :
    Except OversizedNumber Compilation :=
  match Token.ofSource source with
  | .error error => error.told.map (failed [])
  | .ok tokens =>
    match Program.ofTokens frames tokens with
    | .error halt => .ok (failed tokens halt.issue)
    | .ok program => .ok (succeeded graphs tokens program)

end Compilation

end MiniLang
