/-
  What is shown of a source.

  A report takes what it tells from the compilation and from the run, and nothing that is remarked
  on a program has any influence on its run.

  1. **Lines** — the text of a report is made of lines: those of the remarks, one for each value
     printed, and those of the error.  None of them begins with a parenthesis, so no report looks
     like the one that there is nothing to show (`orNothing_eq_noOutput_iff`).
  2. **Reports** — `Report.Coherent`: what a report takes from the compilation and from the run, and
     what its text is.
  3. **Graphs** — `Report.SameButGraphs`: two reports of one source, of which the second one tells
     the sizes of the graphs.
-/
import MiniLang.Proofs.Compiling.Outcomes
import MiniLang.Proofs.Printing.RoundTrip
import MiniLang.Proofs.Running.Exhaustion
import MiniLang.Proofs.Running.Words
import MiniLang.Report

namespace MiniLang

/-! ## Lines -/

namespace Text

/-- Some lines, with a line feed behind each. -/
def unlines (ls : List String) : String := String.join (ls.map (· ++ "\n"))

theorem unlines_cons (l : String) (ls : List String) :
    unlines (l :: ls) = l ++ "\n" ++ unlines ls := String.join_cons

theorem unlines_append (ls ls' : List String) :
    unlines (ls ++ ls') = unlines ls ++ unlines ls' := by
  rw [unlines, List.map_append, String.join_append]
  rfl

theorem unlines_concat (ls : List String) (l : String) :
    unlines (ls ++ [l]) = unlines ls ++ l ++ "\n" := by
  rw [unlines_append, unlines_cons, show unlines [] = "" from rfl, String.append_empty,
    String.append_assoc]

theorem unlines_eq_empty_iff {ls : List String} : unlines ls = "" ↔ ls = [] := by
  constructor
  · intro h
    cases ls with
    | nil => rfl
    | cons l ls =>
      rw [unlines_cons] at h
      have hlength := congrArg String.length h
      simp at hlength
  · rintro rfl
    rfl

/-- A line that does not begin with a parenthesis. -/
def Plain (l : String) : Prop := l.toList.head? ≠ some '('

instance (l : String) : Decidable (Plain l) := inferInstanceAs (Decidable (_ ≠ _))

theorem plain_append {l l' : String} (hne : l ≠ "") (hl : Plain l) : Plain (l ++ l') := by
  cases htext : l.toList with
  | nil => exact absurd (String.toList_inj.mp htext) hne
  | cons c cs =>
    rw [Plain, htext] at hl
    rw [Plain, String.toList_append, htext]
    exact hl

end Text

open Text (unlines unlines_cons unlines_append unlines_concat unlines_eq_empty_iff)

namespace Report

/-- A text, or what is shown where it is empty. -/
def orNothing (s : String) : String := if s = "" then noOutput else s

/-- Something is always shown, and it ends with a line feed. -/
theorem orNothing_ends (ls : List String) : ∃ front, orNothing (unlines ls) = front ++ "\n" := by
  rcases List.eq_nil_or_concat ls with rfl | ⟨ls, l, rfl⟩
  · exact ⟨"(no output)", by decide⟩
  · rw [List.concat_eq_append, orNothing, if_neg]
    · exact ⟨_, unlines_concat ls l⟩
    · rw [unlines_eq_empty_iff]
      exact List.append_ne_nil_of_right_ne_nil _ (List.cons_ne_nil _ _)

theorem orNothing_eq_noOutput_iff {ls : List String} (hls : ∀ l ∈ ls, Text.Plain l) :
    orNothing (unlines ls) = noOutput ↔ ls = [] := by
  constructor
  · intro h
    cases ls with
    | nil => rfl
    | cons l ls =>
      have hne : unlines (l :: ls) ≠ "" := fun h => List.cons_ne_nil _ _ (unlines_eq_empty_iff.mp h)
      rw [orNothing, if_neg hne, unlines_cons] at h
      have hhead := congrArg (·.toList.head?) h
      exfalso
      cases htext : l.toList with
      | nil =>
        simp only [String.toList_append, htext] at hhead
        cases hhead
      | cons c cs =>
        have hplain := hls l List.mem_cons_self
        rw [Text.Plain, htext] at hplain
        simp only [String.toList_append, htext] at hhead
        exact hplain hhead
  · rintro rfl
    rfl

/-- The messages of the remarks that are no errors. -/
def messages (r : Report) : List String :=
  (r.compilation.diagnostics.filter (·.severity ≠ .error)).map (·.message)

/-- The text of the error, if there is one. -/
def errorText (r : Report) : String := (r.error.map Issue.report).getD ""

theorem infoText_eq (r : Report) : r.compilation.diagnostics.infoText = unlines r.messages := by
  rw [unlines, messages, List.map_map]
  rfl

theorem text_eq (r : Report) :
    r.text = orNothing (unlines r.messages ++ r.output ++ r.errorText) := by
  rw [← infoText_eq]
  rfl

end Report

theorem Machine.output_eq_unlines (m : Machine) :
    m.output = unlines (m.printed.toList.map Int.repr) := by
  rw [← String.toList_inj, Machine.output_toList, unlines, String.toList_join, List.map_map,
    List.flatMap_map]
  rfl

/-- A decimal number begins with a digit or with a minus sign. -/
theorem Text.Decimal.plain {v : Int} {text : List Char} (h : Decimal v text) :
    text.head? ≠ some '(' := by
  obtain ⟨digits, rfl, -, hdigits, -⟩ := h
  split
  · exact fun hhead => absurd hhead (by decide : some '-' ≠ some '(')
  · intro hhead
    have := hdigits '(' (List.mem_of_mem_head? hhead)
    revert this
    decide

/-- The first line of an error begins with its heading, and the other lines begin with blanks. -/
theorem Issue.plain_lines (issue : Issue) : ∀ l ∈ issue.lines, Text.Plain l := by
  intro l hl
  simp only [Issue.lines, List.mem_append, List.mem_singleton, List.mem_map, Option.mem_toList,
    Option.map_eq_some_iff] at hl
  rcases hl with ((rfl | ⟨span, -, rfl⟩) | ⟨hint, -, rfl⟩) | ⟨name, -, rfl⟩
  · cases issue.category <;> simp only [Category.label, String.append_assoc] <;>
      exact Text.plain_append (by decide) (by decide)
  · show Text.Plain ("  at line " ++ _ ++ _ ++ _ ++ _ ++ _ ++ _)
    simp only [String.append_assoc]
    exact Text.plain_append (by decide) (by decide)
  · exact Text.plain_append (by decide) (by decide)
  · exact Text.plain_append (by decide) (by decide)

/-! ## Reports -/

/-- A name is one line. -/
theorem Token.IsName.noLineFeed {name : String} (h : Token.IsName name) : '\n' ∉ name.toList := by
  obtain ⟨-, c, cs, hname, hc, hcs⟩ := h
  rw [hname]
  intro hmem
  rcases List.mem_cons.mp hmem with rfl | hmem
  · exact absurd hc (by decide +kernel)
  · exact absurd (hcs _ hmem) (by decide +kernel)

theorem noLineFeed_repr (n : Nat) : '\n' ∉ n.repr.toList := by
  rw [Nat.repr_eq_ofList_toDigits, String.toList_ofList]
  intro hmem
  exact absurd (Nat.isDigit_of_mem_toDigits (by decide) (by decide) hmem) (by decide)

namespace Compilation

/-- The remarks on a program from a source are single lines. -/
theorem line_of_remark {fs : List FunctionDef} (hfs : ∀ f ∈ fs, Token.IsName f.name)
    {graphs : Bool} :
    ∀ d ∈ (redefinitions fs).map redefinitionRemark ++ (if graphs then fs.map sizeRemark else []),
      Text.Plain d.message ∧ '\n' ∉ d.message.toList := by
  have hsub : ∀ f ∈ redefinitions fs, f ∈ fs := by
    intro f hf
    obtain ⟨⟨g, i⟩, hg, rfl⟩ := List.mem_map.mp hf
    exact List.fst_mem_of_mem_zipIdx (List.mem_filter.mp hg).1
  intro d hd
  rcases List.mem_append.mp hd with hd | hd
  · obtain ⟨f, hf, rfl⟩ := List.mem_map.mp hd
    have hname := (hfs f (hsub f hf)).noLineFeed
    simp only [redefinitionRemark, String.append_assoc]
    refine ⟨Text.plain_append (by decide) (by decide), ?_⟩
    simp only [String.toList_append, List.mem_append, hname, false_or]
    decide
  · cases graphs with
    | false => cases hd
    | true =>
      obtain ⟨f, hf, rfl⟩ := List.mem_map.mp hd
      have hname := (hfs f hf).noLineFeed
      simp only [sizeRemark, String.append_assoc]
      refine ⟨Text.plain_append (by decide) (by decide), ?_⟩
      simp only [String.toList_append, List.mem_append, hname, noLineFeed_repr, false_or]
      decide

/-- What a text compiles to, without the sizes of the graphs and with them. -/
theorem ofSource_cases (frames : Nat) (source : String) :
    (∃ n, ∀ graphs, ofSource frames graphs source = .error n) ∨
    (∃ tokens issue, ∀ graphs, ofSource frames graphs source = .ok (failed tokens issue)) ∨
    ∃ tokens p, p.Parsed ∧
      ∀ graphs, ofSource frames graphs source = .ok (succeeded graphs tokens p) := by
  unfold ofSource
  cases hsource : Token.ofSource source with
  | error e =>
    cases htold : e.told with
    | error n => exact .inl ⟨n, fun _ => congrArg (Except.map (failed [])) htold⟩
    | ok issue =>
      exact .inr (.inl ⟨[], issue, fun _ => congrArg (Except.map (failed [])) htold⟩)
  | ok tokens =>
    cases hprogram : Program.ofTokens frames tokens with
    | error halt => exact .inr (.inl ⟨tokens, halt.issue, fun _ => by simp only [hprogram]⟩)
    | ok p =>
      exact .inr (.inr ⟨tokens, p, parsed_of_ofTokens hsource hprogram,
        fun _ => by simp only [hprogram]⟩)

end Compilation

namespace Report

/-- A report of a source tells of its compilation and of the run of its program. -/
structure Told (limits : Limits) (graphs : Bool) (source : String) (r : Report) : Prop where
  compiled : Compilation.ofSource limits.frames graphs source = .ok r.compilation
  /-- What does not compile is not run. -/
  failed : ∀ issue, r.compilation.error = some issue → r.compilation.program = none ∧
    r.error = some issue ∧ r.output = "" ∧ r.steps = 0 ∧ r.globals = []
  ran : r.compilation.error = none → ∃ p, r.compilation.program = some p ∧
    r.output = (p.run limits).output ∧ r.steps = (p.run limits).steps ∧
    r.globals = (p.run limits).globals ∧ r.error = (p.run limits).error

/-- And its text is made of the remarks, the output and the error. -/
structure Coherent (limits : Limits) (graphs : Bool) (source : String) (r : Report) : Prop
    extends Told limits graphs source r where
  /-- Every remark is one line. -/
  lines : ∀ message ∈ r.messages, '\n' ∉ message.toList
  text : r.text = orNothing (unlines r.messages ++ r.output ++ r.errorText)
  nothing : r.text = noOutput ↔ r.messages = [] ∧ r.output = "" ∧ r.error = none
  ends : ∃ front, r.text = front ++ "\n"

theorem Told.coherent {limits : Limits} {graphs : Bool} {source : String} {r : Report}
    (htold : r.Told limits graphs source)
    (hmessages : ∀ message ∈ r.messages, Text.Plain message ∧ '\n' ∉ message.toList)
    {vs : List Int} (houtput : r.output = unlines (vs.map Int.repr)) :
    r.Coherent limits graphs source := by
  obtain ⟨ls, hls, hplain, hnone⟩ : ∃ ls, r.errorText = unlines ls ∧ (∀ l ∈ ls, Text.Plain l) ∧
      (ls = [] ↔ r.error = none) := by
    unfold errorText
    cases r.error with
    | none => exact ⟨[], rfl, List.forall_mem_nil _, by simp⟩
    | some issue => exact ⟨issue.lines, rfl, issue.plain_lines, by simp [Issue.lines]⟩
  have htext : r.text = orNothing (unlines (r.messages ++ vs.map Int.repr ++ ls)) := by
    rw [text_eq, houtput, hls, unlines_append, unlines_append]
  have hall : ∀ l ∈ r.messages ++ vs.map Int.repr ++ ls, Text.Plain l := by
    refine List.forall_mem_append.mpr ⟨List.forall_mem_append.mpr ⟨?_, ?_⟩, hplain⟩
    · exact fun l hl => (hmessages l hl).1
    · exact List.forall_mem_map.mpr fun v _ => (Text.decimal_repr v).plain
  refine ⟨htold, fun m hm => (hmessages m hm).2, text_eq r, ?_, ?_⟩
  · rw [htext, orNothing_eq_noOutput_iff hall, List.append_eq_nil_iff, List.append_eq_nil_iff,
      hnone, houtput, unlines_eq_empty_iff, and_assoc]
  · rw [htext]
    exact orNothing_ends _

/-- Without a program there is one remark, the error itself, and it is no line of the text. -/
theorem coherent_of_failed {limits : Limits} {graphs : Bool} {source : String}
    {tokens : List Token} {issue : Issue} (h : Compilation.ofSource limits.frames graphs source =
      .ok (.failed tokens issue)) :
    (ofCompilation limits (.failed tokens issue)).Coherent limits graphs source := by
  have htold : (ofCompilation limits (.failed tokens issue)).Told limits graphs source :=
    ⟨h, fun _ hissue => ⟨rfl, hissue, rfl, rfl, rfl⟩, nofun⟩
  have houtput : "" = unlines (([] : List Int).map Int.repr) := rfl
  exact htold.coherent (List.forall_mem_nil _) houtput

/-- A program without the sizes of its graphs, or with them, is not run differently. -/
theorem coherent_of_succeeded {limits : Limits} {graphs : Bool} {source : String}
    {tokens : List Token} {p : Program} (hp : p.Parsed)
    (h : Compilation.ofSource limits.frames graphs source = .ok (.succeeded graphs tokens p)) :
    (ofCompilation limits (.succeeded graphs tokens p)).Coherent limits graphs source := by
  have htold : (ofCompilation limits (.succeeded graphs tokens p)).Told limits graphs source :=
    ⟨h, nofun, fun _ => ⟨p, rfl, rfl, rfl, rfl, rfl⟩⟩
  refine htold.coherent ?_ (Machine.output_eq_unlines _)
  intro message hmessage
  obtain ⟨d, hd, rfl⟩ := List.mem_map.mp hmessage
  have hremark : d ∈ (Compilation.succeeded graphs tokens p).diagnostics := (List.mem_filter.mp hd).1
  rw [Compilation.diagnostics_succeeded] at hremark
  exact Compilation.line_of_remark (fun f hf => (hp.functions f hf).name) d hremark

/-! ## Graphs -/

/-- The definitions in the program of a report, if it has one. -/
def definitions (r : Report) : List FunctionDef := (r.compilation.program.map (·.functions)).getD []

/-- The remarks on functions that are defined again. -/
def warnings (r : Report) : List String :=
  (redefinitions r.definitions).map fun f => (Compilation.redefinitionRemark f).message

/-- The remarks on the sizes of the graphs, one for each definition. -/
def sizes (r : Report) : List String :=
  r.definitions.map fun f => (Compilation.sizeRemark f).message

/-- Two reports of a source, of which the second one tells the sizes of the graphs, behind the
    warnings and before the output. -/
structure SameButGraphs (quiet full : Report) : Prop where
  output : full.output = quiet.output
  steps : full.steps = quiet.steps
  globals : full.globals = quiet.globals
  error : full.error = quiet.error
  program : full.compilation.program = quiet.compilation.program
  quietMessages : quiet.messages = quiet.warnings
  fullMessages : full.messages = quiet.warnings ++ quiet.sizes
  quietText : quiet.text = orNothing (unlines quiet.warnings ++ (quiet.output ++ quiet.errorText))
  fullText : full.text = orNothing
    (unlines quiet.warnings ++ unlines quiet.sizes ++ (quiet.output ++ quiet.errorText))
  /-- They stand in the place of nothing. -/
  replaced : quiet.text = noOutput → full.text = orNothing (unlines quiet.sizes)

/-- Where there is a program, its remarks are the warnings and, on request, the sizes. -/
theorem messages_succeeded {limits : Limits} {graphs : Bool} {tokens : List Token} {p : Program}
    {r : Report} (hr : r = ofCompilation limits (.succeeded graphs tokens p)) :
    r.messages = r.warnings ++ if graphs then r.sizes else [] := by
  have hdiagnostics : r.compilation.diagnostics =
      (redefinitions p.functions).map Compilation.redefinitionRemark ++
        if graphs then p.functions.map Compilation.sizeRemark else [] := by
    rw [hr]
    exact Compilation.diagnostics_succeeded graphs tokens p
  rw [messages, hdiagnostics, List.filter_eq_self.mpr fun d hd =>
    decide_eq_true (Compilation.severity_of_remark d hd), List.map_append, List.map_map]
  subst hr
  cases graphs with
  | false => rfl
  | true => exact congrArg _ (List.map_map ..)

/-- Two reports that differ in their remarks only, and there in the sizes. -/
theorem sameButGraphs_of_messages {limits : Limits} {graphs : Bool} {source : String}
    {quiet full : Report} (hsame : ∃ c, full = { quiet with compilation := c })
    (hprogram : full.compilation.program = quiet.compilation.program)
    (hquiet : quiet.messages = quiet.warnings)
    (hfull : full.messages = quiet.warnings ++ quiet.sizes)
    (hcoherent : quiet.Coherent limits graphs source) : SameButGraphs quiet full := by
  obtain ⟨c, rfl⟩ := hsame
  have hfullText : text { quiet with compilation := c } = orNothing
      (unlines quiet.warnings ++ unlines quiet.sizes ++ (quiet.output ++ quiet.errorText)) := by
    rw [text_eq, hfull, unlines_append, String.append_assoc]
    rfl
  refine ⟨rfl, rfl, rfl, rfl, hprogram, hquiet, hfull, ?_, hfullText, ?_⟩
  · rw [hcoherent.text, hquiet, String.append_assoc]
  · intro hnothing
    obtain ⟨hmessages, hempty, hnone⟩ := hcoherent.nothing.mp hnothing
    have herrorText : quiet.errorText = "" := by
      rw [errorText, hnone]
      rfl
    rw [hfullText, ← hquiet, hmessages, hempty, herrorText, String.append_empty,
      String.append_empty, show unlines [] = "" from rfl, String.empty_append]

end Report

open Report in
/-- **A report is coherent, and graphs change no run.**  Either a source is refused for an oversized
    number, or there are two reports of it, the one without the sizes of graphs and the one with
    them.  Both tell exactly of the compilation and, if that made a program, of its run; their texts
    are made of the remarks, the output and the error; and they say that there is nothing to show
    exactly if all three are empty.  Of the run they tell the same, and the second one shows one line
    more for each definition, behind the warnings and before the output. -/
theorem reports_are_coherent (limits : Limits) (source : String) :
    (∃ n, ∀ graphs, Compilation.ofSource limits.frames graphs source = .error n ∧
      Report.ofSource limits graphs source = .error n) ∨
    ∃ quiet full, Report.ofSource limits false source = .ok quiet ∧
      Report.ofSource limits true source = .ok full ∧
      quiet.Coherent limits false source ∧ full.Coherent limits true source ∧
      quiet.SameButGraphs full := by
  have hreport : ∀ {graphs c}, Compilation.ofSource limits.frames graphs source = .ok c →
      Report.ofSource limits graphs source = .ok (ofCompilation limits c) := by
    intro graphs c h
    rw [Report.ofSource, h]
    rfl
  rcases Compilation.ofSource_cases limits.frames source with
    ⟨n, hrefused⟩ | ⟨tokens, issue, hfailed⟩ | ⟨tokens, p, hp, hsucceeded⟩
  · refine .inl ⟨n, fun graphs => ⟨hrefused graphs, ?_⟩⟩
    rw [Report.ofSource, hrefused]
    rfl
  · have hcoherent := fun graphs => coherent_of_failed (hfailed graphs)
    exact .inr ⟨_, _, hreport (hfailed false), hreport (hfailed true), hcoherent false,
      hcoherent true, sameButGraphs_of_messages ⟨_, rfl⟩ rfl rfl rfl (hcoherent false)⟩
  · have hcoherent := fun graphs => coherent_of_succeeded hp (hsucceeded graphs)
    refine .inr ⟨_, _, hreport (hsucceeded false), hreport (hsucceeded true), hcoherent false,
      hcoherent true, sameButGraphs_of_messages ⟨_, rfl⟩ rfl ?_ (messages_succeeded rfl)
        (hcoherent false)⟩
    rw [messages_succeeded rfl]
    exact List.append_nil _

example : ((Report.ofSource ⟨some 9, 0, 60⟩ false "func f()\x7b\x7d").toOption.map Report.text,
    (Report.ofSource ⟨some 9, 0, 60⟩ true "func f()\x7b\x7d").toOption.map Report.text) =
    (some "(no output)\n", some "[CFG] Function f has 2 nodes\n") := by
  decide +kernel

end MiniLang
