/-
  The number of frames only truncates.

  Parsing and running both nest only as deeply as there are frames.  Where the frames last, nothing
  depends on how many there are.  Where they do not last, parsing leaves nothing behind; a run leaves
  what it did so far, which is the beginning of what it does with more of them.

  1. **Nothing is lost** — what is put out in any state that a run passes is in its output
     (`output_of_passed`), whatever stops it.
  2. **Errors** — exhausted frames are told as `Issue.depth`, and nothing else is.
  3. **Texts and runs together** — `frames_only_truncate`.
-/
import MiniLang.Proofs.Lexing.Words
import MiniLang.Proofs.Parsing.MoreFrames
import MiniLang.Proofs.Running.Overwriting

namespace MiniLang

variable {limits limits' : Limits}

/-- What is put out in a state that a run passes stays in its output. -/
theorem output_of_passed {program : Program} {m : Machine} (hm : m ∈ program.passed limits) :
    m.output.toList <+: (program.run limits).output.toList := by
  obtain ⟨i, hi⟩ := List.mem_iff_getElem?.mp hm
  have hlast := getLast?_passed limits program
  rw [List.getLast?_eq_getElem?] at hlast
  have hle : i ≤ (program.passed limits).length - 1 := by
    have := (List.getElem?_eq_some_iff.mp hi).1
    omega
  exact (later_of_passed hle hi hlast).output

/-- What a halt is told as. -/
def Outcome.error (o : Outcome) : Option Issue := o.halt.bind Halt.issue?

/-- Only exhausted frames are told as such: every failure has a place. -/
theorem Outcome.error_eq_depth_iff (o : Outcome) :
    o.error = some .depth ↔ o.halt = some .tooDeep := by
  constructor
  · intro h
    obtain ⟨halt, hhalt, hissue⟩ := Option.bind_eq_some_iff.mp h
    rw [hhalt]
    cases halt with
    | tooDeep => rfl
    | unfinished => cases hissue
    | failed fault span calls =>
      have hspan : some span = none := congrArg Issue.span (Option.some.inj hissue)
      cases hspan
  · intro h
    rw [error, h]
    rfl

/-- **The number of frames only truncates.**  With more frames:

    1. tokens that were parsed within the smaller number, or found to be wrong, come to the same
       program or the same error;
    2. a text that was not found to be nested too deeply is compiled to the same;
    3. a run that did not exhaust its frames is the same in everything; and one that did tells so
       without a place and without calls, has in its output all that was put out in any of its
       states, and this begins the output of the run with more frames, which counts no fewer
       steps. -/
theorem frames_only_truncate {frames frames' : Nat} (hle : frames ≤ frames') :
    (∀ tokens, Program.ofTokens frames tokens ≠ .error .tooDeep →
      Program.ofTokens frames' tokens = Program.ofTokens frames tokens) ∧
    (∀ graphs source c, Compilation.ofSource frames graphs source = .ok c →
      c.error ≠ some .nesting → Compilation.ofSource frames' graphs source = .ok c) ∧
    ∀ (program : Program) (budget : Option Int) (patience : Nat),
      let short := program.run ⟨budget, patience, frames⟩
      let long := program.run ⟨budget, patience, frames'⟩
      (short.error ≠ some .depth → long = short) ∧
      (short.error = some .depth →
        Issue.depth.message = "Recursion depth exhausted" ∧ Issue.depth.span = none ∧
        Issue.depth.category.calls = [] ∧
        (∀ m ∈ program.passed ⟨budget, patience, frames⟩,
          m.output.toList <+: short.output.toList) ∧
        short.output.toList <+: long.output.toList ∧ short.steps ≤ long.steps) := by
  refine ⟨fun _ => ofTokens_of_more_frames hle,
    fun _ _ _ => Compilation.ofSource_of_more_frames hle, ?_⟩
  intro program budget patience short long
  have htime : Limits.SameTime ⟨budget, patience, frames⟩ ⟨budget, patience, frames'⟩ := ⟨rfl, rfl⟩
  have hruns := run_extends program htime hle
  constructor
  · intro herror
    rcases hruns with hsame | ⟨hdeep, -⟩
    · exact hsame
    · exact absurd (short.error_eq_depth_iff.mpr hdeep) herror
  · intro _
    refine ⟨rfl, rfl, rfl, fun m hm => output_of_passed hm, ?_⟩
    rcases hruns with hsame | ⟨-, hgrown⟩
    · have hshort : long = short := hsame
      rw [hshort]
      exact ⟨List.prefix_refl _, Nat.le_refl _⟩
    · exact ⟨Machine.output_isPrefix hgrown.1, hgrown.2⟩

/-- A countdown in which every call prints its number and makes the next call. -/
def countdown : String := "func f(n)\x7bprint(n);if(n)f(n-1);\x7df(9);"

/-- Thirty frames are enough to parse it, but not for more than five nested calls. -/
theorem countdown_truncated : 30 ≤ 100 ∧ ∃ tokens program c, Token.ofSource countdown = .ok tokens ∧
    (Program.ofTokens 30 tokens = .ok program ∧ Program.ofTokens 100 tokens = .ok program) ∧
    (Compilation.ofSource 30 false countdown = .ok c ∧ c.error ≠ some .nesting ∧
      Compilation.ofSource 100 false countdown = .ok c) ∧
    ((program.run ⟨some 4, 0, 30⟩).error ≠ some .depth ∧
      program.run ⟨some 4, 0, 100⟩ = program.run ⟨some 4, 0, 30⟩) ∧
    (program.run ⟨some 90, 0, 30⟩).error = some .depth ∧
    (program.run ⟨some 90, 0, 30⟩).output = "9\n8\n7\n6\n5\n" ∧
    "9\n8\n7\n6\n5\n".toList <+: (program.run ⟨some 90, 0, 100⟩).output.toList ∧
    22 ≤ (program.run ⟨some 90, 0, 100⟩).steps := by
  have hread : (((Token.ofSource countdown).toOption.bind fun tokens =>
      (Program.ofTokens 30 tokens).toOption).map fun p =>
        ((p.run ⟨some 4, 0, 30⟩).error == some .depth, (p.run ⟨some 90, 0, 30⟩).error,
          (p.run ⟨some 90, 0, 30⟩).output, (p.run ⟨some 90, 0, 30⟩).steps)) =
      some (false, some .depth, "9\n8\n7\n6\n5\n", 22) := by decide +kernel
  obtain ⟨program, hsome, hrun⟩ := Option.map_eq_some_iff.mp hread
  obtain ⟨tokens, htokens, hprogram⟩ := Option.bind_eq_some_iff.mp hsome
  have hsource : Token.ofSource countdown = .ok tokens := Token.eq_ok_of_toOption htokens
  have hparsed : Program.ofTokens 30 tokens = .ok program := Token.eq_ok_of_toOption hprogram
  have hcompiled : Compilation.ofSource 30 false countdown =
      .ok (.succeeded false tokens program) := by
    simp only [Compilation.ofSource, hsource, hparsed]
  simp only [Prod.mk.injEq, beq_eq_false_iff_ne] at hrun
  obtain ⟨hlasts, hdeep, houtput, hsteps⟩ := hrun
  obtain ⟨hparse, hcompile, hruns⟩ := frames_only_truncate (show 30 ≤ 100 by decide)
  obtain ⟨-, -, -, -, hprefix, hle⟩ := (hruns program (some 90) 0).2 hdeep
  rw [houtput] at hprefix
  rw [hsteps] at hle
  refine ⟨by decide, tokens, program, _, hsource, ⟨hparsed, ?_⟩, ⟨hcompiled, nofun, ?_⟩,
    ⟨hlasts, (hruns program (some 4) 0).1 hlasts⟩, hdeep, houtput, hprefix, hle⟩
  · rw [hparse tokens (by rw [hparsed]; exact nofun), hparsed]
  · exact hcompile false countdown _ hcompiled nofun

end MiniLang
