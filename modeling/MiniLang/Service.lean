/-
  The web service: what each address answers.

  A request to compile or to run carries a JSON object.  Its `source` must be a string;
  `cfg_summary`, if present, a truth value; `max_steps`, if present, an integer, or null for a run
  without a budget, while a request that does not mention it gets a budget that stops endless
  loops.  Other fields do not matter.  A request that is not of this form is refused.
-/
import MiniLang.Demo
import MiniLang.Json.Shape

namespace MiniLang.Service

/-- A request to compile a text. -/
structure CompileRequest where
  source : String
  graphs : Bool
  deriving DecidableEq

/-- A request to run a text. -/
structure RunRequest where
  source : String
  graphs : Bool
  budget : Option Int
  deriving DecidableEq

/-- Why there is no answer. -/
inductive Refusal
  /-- The request is not of the form it must have. -/
  | malformed
  | oversizedNumber (n : OversizedNumber)
  deriving DecidableEq

/-! ## Requests -/

/-- The budget of a run whose request does not mention one. -/
def defaultBudget : Int := 50000

/-- The text of a request. -/
def sourceOf? (body : Json) : Option String :=
  match body.field? "source" with
  | some (.str s) => some s
  | _ => none

/-- Whether a request asks for the sizes of graphs. -/
def graphsOf? (body : Json) : Option Bool :=
  match body.field? "cfg_summary" with
  | none => some false
  | some (.bool b) => some b
  | some _ => none

/-- The budget of a request. -/
def budgetOf? (body : Json) : Option (Option Int) :=
  match body.field? "max_steps" with
  | none => some (some defaultBudget)
  | some .null => some none
  | some (.int n) => some (some n)
  | some _ => none

def CompileRequest.ofJson? (body : Json) : Option CompileRequest := do
  let source ← sourceOf? body
  let graphs ← graphsOf? body
  return { source, graphs }

def RunRequest.ofJson? (body : Json) : Option RunRequest := do
  let source ← sourceOf? body
  let graphs ← graphsOf? body
  let budget ← budgetOf? body
  return { source, graphs, budget }

/-! ## Answers -/

/-- How deep a tree is written out. -/
def treeDepth : Int := 64

def spanJson (span : Option Span) : Json := .ofOption (fun s => s.datum.cut treeDepth) span

def diagnosticJson (d : Diagnostic) : Json :=
  .obj [("severity", .str d.severity.label), ("message", .str d.message),
    ("hint", .ofOption .str d.hint), ("span", spanJson d.span)]

def tokenJson (t : Token) : Json :=
  .obj [("kind", .str t.kind.label), ("lexeme", .str t.lexeme), ("value", .ofOption .int t.value),
    ("span", spanJson (some t.span))]

def issueJson (issue : Issue) : Json :=
  .obj [("kind", .str issue.category.label), ("message", .str issue.message),
    ("span", spanJson issue.span), ("call_stack", .arr (issue.category.calls.map .str))]

/-- The answer for a compilation; the end marker counts as a token but is not listed. -/
def compilationJson (c : Compilation) : Json :=
  .obj [("token_count", .int c.tokens.length), ("diagnostic_count", .int c.diagnostics.length),
    ("has_ast", .bool c.program.isSome), ("diagnostics", .arr (c.diagnostics.map diagnosticJson)),
    ("tokens", .arr ((c.tokens.filter (·.kind ≠ .eof)).map tokenJson)),
    ("ast", .ofOption (fun p => p.datum.cut treeDepth) c.program)]

/-- The answer for a report. -/
def reportJson (r : Report) : Json :=
  .obj [("text", .str r.text), ("output", .str r.output),
    ("steps", .ofOption (fun n : Nat => .int n) r.shownSteps),
    ("error", .ofOption issueJson r.error),
    ("diagnostics", .arr (r.compilation.diagnostics.map diagnosticJson))]

/-- A request that reads, answered by what may refuse only an oversized number. -/
def answer {α β : Type} (request : Option α) (work : α → Except OversizedNumber β)
    (json : β → Json) : Except Refusal Json :=
  match request with
  | none => .error .malformed
  | some request =>
    match work request with
    | .ok b => .ok (json b)
    | .error n => .error (.oversizedNumber n)

/-- Compiles the text of a request. -/
def compile (body : Json) : Except Refusal Json :=
  answer (CompileRequest.ofJson? body)
    (fun r => Compilation.ofSource (Limits.standard none).frames r.graphs r.source) compilationJson

/-- Runs the text of a request. -/
def run (body : Json) : Except Refusal Json :=
  answer (RunRequest.ofJson? body)
    (fun r => Report.ofSource (Limits.standard r.budget) r.graphs r.source) reportJson

/-! ## Pages -/

/-- What an address shows. -/
inductive Page
  | html (text : String)
  | json (value : Json)

/-- The page that says what the service offers. -/
def indexPage : String :=
  "<h2>Mini Interpreter API</h2>"
    ++ "<p>POST <code>/api/run</code> with JSON: "
    ++ "<code>\x7b\"source\": \"print(1 + 2);\"\x7d</code></p>"
    ++ "<p>GET <code>/api/demo</code> for a sample program.</p>"

/-- The page at an address. -/
def page? : String → Option Page
  | "/" => some (.html indexPage)
  | "/health" => some (.json (.obj [("status", .str "ok")]))
  | "/api/demo" => some (.json (.obj [("source", .str demoProgram)]))
  | _ => none

end MiniLang.Service
