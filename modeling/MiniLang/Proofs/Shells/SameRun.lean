/-
  The command line and the web service show the same run.

  1. **Line ends** — a file is read with every pair of a carriage return and a line feed replaced by
     a line feed, and then every return that is left.  That is the one pass of `unifyNewlines`
     (`unifyNewlines_eq`), because a replaced pair leaves no return behind and ends in no pair.
  2. **Requests** — a request may leave out what it does not ask for (`Service.Asks`).
  3. **Answers** — the response of the command line, the answer of the service and the text of a run
     are all made of one report (`SameRun`), so they agree as soon as all three begin with the same
     text, graphs and budget.
-/
import MiniLang.CommandLine
import MiniLang.Proofs.Shells.Options
import MiniLang.Service

namespace MiniLang

/-! ## Line ends -/

namespace Text

/-- A text with every occurrence of some characters replaced, from the left and without overlaps. -/
def replaceAll (old new : List Char) : List Char → List Char
  | [] => []
  | c :: rest =>
    if old.isPrefixOf (c :: rest) then new ++ replaceAll old new (rest.drop (old.length - 1))
    else c :: replaceAll old new rest
termination_by cs => cs.length
decreasing_by all_goals simp only [List.length_cons, List.length_drop]; omega

/-- A text with its pairs of a return and a feed replaced by feeds, and then its returns. -/
def withLineFeeds (s : String) : String :=
  String.ofList (replaceAll ['\r'] ['\n'] (replaceAll ['\r', '\n'] ['\n'] s.toList))

/-- Where what is replaced does not begin, a character is kept. -/
theorem replaceAll_cons_of_ne {d c : Char} (h : c ≠ d) (old new rest : List Char) :
    replaceAll (d :: old) new (c :: rest) = c :: replaceAll (d :: old) new rest := by
  have hnot : (d :: old).isPrefixOf (c :: rest) = false := by
    rw [List.isPrefixOf_cons_cons, beq_false_of_ne h.symm, Bool.false_and]
  rw [replaceAll, hnot, if_neg Bool.false_ne_true]

/-- Both replacements are made in one pass. -/
theorem unifyNewlines_eq (cs : List Char) :
    unifyNewlines cs = replaceAll ['\r'] ['\n'] (replaceAll ['\r', '\n'] ['\n'] cs) := by
  have hfeed : '\n' ≠ '\r' := by decide
  have hreturn : ∀ rest, replaceAll ['\r'] ['\n'] ('\r' :: rest) =
      '\n' :: replaceAll ['\r'] ['\n'] rest := fun rest => by simp [replaceAll]
  fun_induction unifyNewlines cs with
  | case1 => simp only [replaceAll]
  | case2 rest ih =>
    have hpair : replaceAll ['\r', '\n'] ['\n'] ('\r' :: '\n' :: rest) =
        '\n' :: replaceAll ['\r', '\n'] ['\n'] rest := by simp [replaceAll]
    rw [hpair, replaceAll_cons_of_ne hfeed, ih]
  | case3 rest hrest ih =>
    -- a return without a feed behind it: the pairs leave it, and the returns take it
    have hnot : ['\r', '\n'].isPrefixOf ('\r' :: rest) = false := by
      cases rest with
      | nil => rfl
      | cons d rest =>
        have hd : d ≠ '\n' := fun hd => hrest rest (hd ▸ rfl)
        simp [List.isPrefixOf, hd.symm]
    rw [replaceAll, hnot, if_neg Bool.false_ne_true, hreturn, ih]
  | case4 c rest _ hc ih =>
    have hne : c ≠ '\r' := fun h => hc h
    rw [replaceAll_cons_of_ne hne, replaceAll_cons_of_ne hne, ih]

theorem fromUTF8?_toUTF8 (s : String) : String.fromUTF8? s.toUTF8 = some s := by
  rw [String.fromUTF8?, String.toUTF8_eq_toByteArray, dif_pos s.isValidUTF8]
  rfl

theorem withLineFeeds_eq (s : String) :
    withLineFeeds s = String.ofList (unifyNewlines s.toList) := by
  rw [withLineFeeds, unifyNewlines_eq]

/-- The file of a text is read as the text with line feeds. -/
theorem ofBytes?_toUTF8 (s : String) : ofBytes? s.toUTF8 = some (withLineFeeds s) := by
  rw [ofBytes?, fromUTF8?_toUTF8, Option.map_some, withLineFeeds_eq]

/-- A text without returns is read as it is. -/
theorem withLineFeeds_eq_self {s : String} (h : '\r' ∉ s.toList) : withLineFeeds s = s := by
  rw [withLineFeeds_eq, unifyNewlines_eq_self h, String.ofList_toList]

end Text

/-! ## Requests -/

namespace Service

/-- A request for a run of a text, with its graphs or without and with some budget.  What is left
    out means no graphs, and the budget of such requests. -/
structure Asks (body : Json) (source : String) (graphs : Bool) (budget : Option Int) : Prop where
  source : body.field? "source" = some (.str source)
  graphs : body.field? "cfg_summary" = some (.bool graphs) ∨
    body.field? "cfg_summary" = none ∧ graphs = false
  budget : body.field? "max_steps" = some (.ofOption .int budget) ∨
    body.field? "max_steps" = none ∧ budget = some defaultBudget

variable {body : Json} {source : String} {graphs : Bool} {budget : Option Int}

theorem Asks.ofJson? (h : Asks body source graphs budget) :
    RunRequest.ofJson? body = some ⟨source, graphs, budget⟩ := by
  have hsource : sourceOf? body = some source := by rw [sourceOf?, h.source]
  have hgraphs : graphsOf? body = some graphs := by
    obtain hfield | ⟨hfield, rfl⟩ := h.graphs <;> rw [graphsOf?, hfield]
  have hbudget : budgetOf? body = some budget := by
    obtain hfield | ⟨hfield, rfl⟩ := h.budget <;> rw [budgetOf?, hfield]
    cases budget <;> rfl
  rw [RunRequest.ofJson?, hsource, hgraphs, hbudget]
  rfl

/-- The answer for a report, or for a number that it could not be made for. -/
theorem Asks.run_eq (h : Asks body source graphs budget) :
    run body = match Report.ofSource (.standard budget) graphs source with
      | .ok report => .ok (reportJson report)
      | .error n => .error (.oversizedNumber n) := by
  rw [run, h.ofJson?, answer]
  cases Report.ofSource (.standard budget) graphs source <;> rfl

/-- An issue is told by an object. -/
theorem ofOption_issueJson_eq_null {issue : Option Issue} :
    Json.ofOption issueJson issue = .null ↔ issue = none := by
  cases issue <;> simp [Json.ofOption, issueJson]

end Service

/-! ## Answers -/

namespace CommandLine

/-- A response of the command line, an answer of the service and the text of a run say the same: the
    text is shown by all three, and the code tells whether the service has an error.  Or it is the
    same number that all three end with. -/
inductive SameRun : Response → Except Service.Refusal Json → Except OversizedNumber String → Prop
  | shown {code : Nat} {text : String} {answer error : Json}
      (htext : answer.field? "text" = some (.str text))
      (herror : answer.field? "error" = some error)
      (hone : code = 1 ↔ error ≠ .null) (hzero : code = 0 ↔ error = .null) :
      SameRun (.exit code text "") (.ok answer) (.ok text)
  | oversized (n : OversizedNumber) :
      SameRun (.oversizedNumber n) (.error (.oversizedNumber n)) (.error n)

/-- The response to a text, if the budget is no blank one. -/
theorem execute_ofLimit (path : Option String) (graphs editor : Bool) (budget : Option Int)
    (notice source : String) :
    execute ⟨path, graphs, .ofLimit budget, editor⟩ notice source =
      match Report.ofSource (.standard budget) graphs source with
      | .ok report => .exit (if report.error.isSome then 1 else 0) (notice ++ report.text) ""
      | .error n => .oversizedNumber n := by
  have hblank : Budget.ofLimit budget ≠ .blank := by cases budget <;> nofun
  simp only [execute, Budget.limit_ofLimit, hblank, false_and, if_false]
  cases Report.ofSource (.standard budget) graphs source <;> rfl

/-- A text that is run by the command line, by the service and alone. -/
theorem sameRun_of_asks {body : Json} {source : String} {graphs : Bool} {budget : Option Int}
    (hbody : Service.Asks body source graphs budget) (path : Option String) (editor : Bool) :
    SameRun (execute ⟨path, graphs, .ofLimit budget, editor⟩ "" source) (Service.run body)
      ((Report.ofSource (.standard budget) graphs source).map Report.text) := by
  rw [execute_ofLimit, hbody.run_eq]
  cases Report.ofSource (.standard budget) graphs source with
  | error n => exact .oversized n
  | ok report =>
    simp only [String.empty_append]
    refine .shown rfl rfl ?_ ?_
    · rw [Ne, Service.ofOption_issueJson_eq_null]
      cases report.error <;> simp
    · rw [Service.ofOption_issueJson_eq_null]
      cases report.error <;> simp

section

variable {m : Type → Type} [Monad m] {before behind : List Flag} {path : String}

/-- The response to a command line is the one to its file. -/
theorem respond_commandLine (read : String → m (Except FileError ByteArray)) (hname : path ≠ "")
    (hpath : Argument.classify path = .ok (.value path))
    (hfits : ∀ flag ∈ before ++ behind, flag.Fits) :
    respond read (commandLine before path behind) = do
      return executeFile ⟨some path, (before ++ behind).contains .graphs,
        .ofLimit (lastNumber? (before ++ behind)), false⟩ (← read path) := by
  simp only [respond, ofArguments_of_flags hpath hfits, Bool.false_eq_true, if_false]

end

/-- Some flags and a file are answered from the file alone; with the file of a text, the answer shows
    the run that the service and a report show of the text with line feeds.  A number that is too
    long is told before the file is read. -/
theorem shells_show_same_run (s : String) (before : List Flag) (path : String)
    (behind : List Flag) (hname : path ≠ "") (hpath : Argument.classify path = .ok (.value path))
    {graphs : Bool} {budget : Option Int} (hgraphs : (before ++ behind).contains .graphs = graphs)
    (hbudget : lastNumber? (before ++ behind) = budget) :
    ((∀ flag ∈ before ++ behind, flag.Fits) →
      ∃ response : Except FileError ByteArray → Response,
        (∀ {m : Type → Type} [Monad m] (read : String → m (Except FileError ByteArray)),
          respond read (commandLine before path behind) = do return response (← read path)) ∧
        (∀ body, Service.Asks body (Text.withLineFeeds s) graphs budget →
          SameRun (response (.ok s.toUTF8)) (Service.run body)
            ((Report.ofSource (.standard budget) graphs (Text.withLineFeeds s)).map Report.text)) ∧
        ('\r' ∉ s.toList → ∀ body, Service.Asks body s graphs budget →
          SameRun (response (.ok s.toUTF8)) (Service.run body)
            ((Report.ofSource (.standard budget) graphs s).map Report.text))) ∧
    ((∃ flag ∈ before ++ behind, ¬ flag.Fits) →
      ∃ flag ∈ before ++ behind, ¬ flag.Fits ∧ ∃ n ∈ flag.number?,
        ∀ {m : Type → Type} [Monad m] (read : String → m (Except FileError ByteArray)),
          respond read (commandLine before path behind) =
            pure (.exit 2 "" (usage ++ "mini-interpreter: error: "
              ++ (UsageError.notAnInteger .budget n.repr).message ++ "\n"))) := by
  subst hgraphs hbudget
  refine ⟨fun hfits => ?_, fun hunfit => ?_⟩
  · refine ⟨executeFile ⟨some path, (before ++ behind).contains .graphs,
      .ofLimit (lastNumber? (before ++ behind)), false⟩,
      fun read => respond_commandLine read hname hpath hfits, ?_, ?_⟩
    · intro body hbody
      rw [executeFile, Text.ofBytes?_toUTF8]
      exact sameRun_of_asks hbody _ _
    · intro hreturn body hbody
      rw [executeFile, Text.ofBytes?_toUTF8, Text.withLineFeeds_eq_self hreturn]
      exact sameRun_of_asks hbody _ _
  · obtain ⟨flag, hflag, hlong, n, hn, hread⟩ := ofArguments_of_unfit hpath hunfit
    refine ⟨flag, hflag, hlong, n, hn, fun read => ?_⟩
    rw [respond, hread]

/-- Two budgets, of which the last one counts, and a file whose first comment ends in a pair and whose
    second one ends in a return. -/
theorem shells_show_same_run_of_returns :
    ∃ response : Except FileError ByteArray → Response,
      (∀ {m : Type → Type} [Monad m] (read : String → m (Except FileError ByteArray)),
        respond read ["--max-steps", "0", "--cfg", "a.mini", "--max-steps=-1"] = do
          return response (← read "a.mini")) ∧
      SameRun (response (.ok "// a\r\n// b\rprint(1);".toUTF8))
        (Service.run (.obj [("source", .str "// a\n// b\nprint(1);"), ("cfg_summary", .bool true),
          ("max_steps", .int (-1))]))
        ((Report.ofSource (.standard (some (-1))) true "// a\n// b\nprint(1);").map Report.text) := by
  have hfeeds : Text.withLineFeeds "// a\r\n// b\rprint(1);" = "// a\n// b\nprint(1);" := by
    rw [Text.withLineFeeds_eq]
    decide
  have hwords : commandLine [.budget false 0, .graphs] "a.mini" [.budget true (-1)] =
      ["--max-steps", "0", "--cfg", "a.mini", "--max-steps=-1"] := by decide
  have hsame := shells_show_same_run "// a\r\n// b\rprint(1);" [.budget false 0, .graphs] "a.mini"
    [.budget true (-1)] (by decide) (by decide) rfl rfl
  obtain ⟨response, hresponse, hrun, -⟩ := hsame.1 (by decide)
  rw [hwords] at hresponse
  rw [hfeeds] at hrun
  exact ⟨response, hresponse, hrun _ ⟨rfl, .inl rfl, .inl rfl⟩⟩

end CommandLine

end MiniLang
