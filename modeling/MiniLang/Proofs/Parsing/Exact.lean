/-
  The parser and the grammar agree.

  The only thing that the grammar does not know is the number of frames.  With `Program.frames` of
  them the parser never runs out, and then

  * it returns a program exactly if the tokens are one, and the program is the one they stand for;
  * tokens stand for at most one program: the parser is a function, and it finds every one;
  * where there is no program, it stops at a wrong token.
-/
import MiniLang.Proofs.Parsing.Complete

namespace MiniLang

/-- Frames that are enough to parse a list of tokens, however deeply it is nested. -/
def Program.frames (tokens : List Token) : Nat := 11 * tokens.length + 12

/-- A list of tokens with an end marker at its end and nowhere else, as a source text has it. -/
def Token.EndsOnce (tokens : List Token) : Prop :=
  ∃ body stop, tokens = body ++ [stop] ∧ Grammar.Unended body ∧ stop.kind = .eof

open Parse

/-- What is said of the reader of programs holds of parsing. -/
theorem ofTokens_of_meets {frames : Nat} {tokens : List Token} {good : Program → Prop}
    {bad : ParseHalt → Prop}
    (h : (Parse.program frames).Meets (.ofTokens tokens) (fun p _ => good p) bad) :
    (∃ p, Program.ofTokens frames tokens = .ok p ∧ good p) ∨
      ∃ halt, Program.ofTokens frames tokens = .error halt ∧ bad halt := by
  unfold Meets at h
  unfold Program.ofTokens
  cases hrun : (Parse.program frames).run (.ofTokens tokens) with
  | ok r =>
    rw [hrun] at h
    exact .inl ⟨r.1, rfl, h⟩
  | error halt =>
    rw [hrun] at h
    exact .inr ⟨halt, rfl, h⟩

/-- What is said of the programs that are read holds of the one that is parsed. -/
theorem good_of_ofTokens {frames : Nat} {tokens : List Token} {p : Program}
    (good : Program → Prop)
    (h : (Parse.program frames).Meets (.ofTokens tokens) (fun p _ => good p) fun _ => True)
    (hp : Program.ofTokens frames tokens = .ok p) : good p := by
  rcases ofTokens_of_meets h with ⟨q, hq, hgood⟩ | ⟨halt, hhalt, -⟩
  · rw [hp] at hq
    cases hq
    exact hgood
  · rw [hp] at hhalt
    cases hhalt

/-- The phrase before the first end marker is all but the last token. -/
theorem eq_append_of_endsOnce {tokens ts : List Token} {s : TokenStream} (h : Token.EndsOnce tokens)
    (hts : Grammar.Unended ts) (hs : s.front.kind = .eof) (heq : tokens = ts ++ s.queue) :
    ∃ stop, tokens = ts ++ [stop] ∧ stop.kind = .eof := by
  obtain ⟨body, stop, rfl, hbody, hstop⟩ := h
  obtain ⟨queue, sentinel⟩ := s
  cases queue with
  | nil =>
    -- nothing is left, so the end marker stands in the phrase
    have hmem : stop ∈ ts := by
      rw [show ts = body ++ [stop] by simpa using heq.symm]
      simp
    exact absurd hstop (hts stop hmem)
  | cons t rest =>
    have ht : t.kind = .eof := hs
    rcases List.eq_nil_or_concat rest with rfl | ⟨middle, last, rfl⟩
    · exact ⟨t, heq, ht⟩
    · have hinj : body ++ [stop] = (ts ++ t :: middle) ++ [last] := by rw [heq]; simp
      have hmem : t ∈ body := by
        rw [(List.append_inj' hinj rfl).1]
        simp
      exact absurd ht (hbody t hmem)

/-- What the parser returns is the program that the tokens stand for. -/
theorem program_of_ofTokens {frames : Nat} {tokens : List Token} {p : Program}
    (h : Token.EndsOnce tokens) (hp : Program.ofTokens frames tokens = .ok p) :
    Grammar.Program tokens p.bare := by
  refine good_of_ofTokens (fun p => Grammar.Program tokens p.bare) ?_ hp
  refine (program_meets frames (TokenStream.ended_ofTokens tokens)).mono ?_ fun _ _ => trivial
  rintro p s' ⟨hend, ts, hts, hprogram⟩
  have hunended : Grammar.Unended ts := (hprogram (.endAt .origin) rfl).unended
  obtain ⟨stop, rfl, hstop⟩ :=
    eq_append_of_endsOnce h hunended hend (congrArg TokenStream.queue hts)
  exact hprogram stop hstop

/-- With enough frames the parser does not run out of them. -/
theorem ofTokens_ne_tooDeep {frames : Nat} {tokens : List Token}
    (h : Program.frames tokens ≤ frames) : Program.ofTokens frames tokens ≠ .error .tooDeep := by
  have hmeets := (program_meets frames (TokenStream.ended_ofTokens tokens)).mono
    (fun _ _ _ => trivial : ∀ p s', _ → (fun _ _ => True) p s') fun _ h => h
  intro hdeep
  rcases ofTokens_of_meets hmeets with ⟨p, hp, -⟩ | ⟨halt, hhalt, hshort⟩
  · rw [hdeep] at hp
    cases hp
  · rw [hdeep] at hhalt
    cases hhalt
    have hlt : frames < 11 * tokens.length + 12 := hshort rfl
    rw [Program.frames] at h
    omega

/-- What the tokens stand for is what the parser returns. -/
theorem ofTokens_of_program {frames : Nat} {tokens : List Token} {tree : Program}
    (h : Grammar.Program tokens tree) (hframes : Program.frames tokens ≤ frames) :
    ∃ p, Program.ofTokens frames tokens = .ok p ∧ p.bare = tree := by
  have hstream : TokenStream.ofTokens tokens
      = (⟨[], TokenStream.sentinelOf tokens⟩ : TokenStream).prepend tokens := by
    rw [TokenStream.prepend, List.append_nil]
    rfl
  have hmeets := program_takes h frames ⟨[], TokenStream.sentinelOf tokens⟩
  rw [← hstream] at hmeets
  rcases ofTokens_of_meets hmeets with hok | ⟨halt, hhalt, hdeep⟩
  · exact hok
  · rw [show halt = .tooDeep from hdeep] at hhalt
    exact absurd hhalt (ofTokens_ne_tooDeep hframes)

/-- Tokens stand for at most one program. -/
theorem Grammar.Program.unique {tokens : List Token} {p q : MiniLang.Program}
    (hp : Grammar.Program tokens p) (hq : Grammar.Program tokens q) : p = q := by
  obtain ⟨p', hp', rfl⟩ := ofTokens_of_program hp (Nat.le_refl _)
  obtain ⟨q', hq', rfl⟩ := ofTokens_of_program hq (Nat.le_refl _)
  rw [hp'] at hq'
  cases hq'
  rfl

/-- **The parser is the grammar.**  It returns a program exactly if the tokens stand for one, and
    then that one; they stand for no other; and in every other case it stops at a wrong token. -/
theorem ofTokens_eq_ok_iff_program {tokens : List Token} (h : Token.EndsOnce tokens) {frames : Nat}
    (hframes : Program.frames tokens ≤ frames) :
    (∀ tree, (∃ p, Program.ofTokens frames tokens = .ok p ∧ p.bare = tree) ↔
      Grammar.Program tokens tree) ∧
    (∀ tree tree', Grammar.Program tokens tree → Grammar.Program tokens tree' → tree = tree') ∧
    ((¬ ∃ tree, Grammar.Program tokens tree) →
      ∃ e, Program.ofTokens frames tokens = .error (.wrong e)) := by
  refine ⟨fun tree => ⟨?_, fun htree => ofTokens_of_program htree hframes⟩,
    fun _ _ => Grammar.Program.unique, fun hnone => ?_⟩
  · rintro ⟨p, hp, rfl⟩
    exact program_of_ofTokens h hp
  · rcases hresult : Program.ofTokens frames tokens with (e | _) | p
    · exact ⟨e, rfl⟩
    · exact absurd hresult (ofTokens_ne_tooDeep hframes)
    · exact absurd ⟨p.bare, program_of_ofTokens h hresult⟩ hnone

/-- The tokens of `if (a) if (b) { } else { }`. -/
def danglingElse : List Token :=
  let token (kind : Token.Kind) (lexeme : String) : Token := ⟨kind, lexeme, .nowhere, none⟩
  [token .kwIf "if", token .lparen "(", token .name "a", token .rparen ")",
   token .kwIf "if", token .lparen "(", token .name "b", token .rparen ")",
   token .lbrace "\x7b", token .rbrace "\x7d", token .kwElse "else", token .lbrace "\x7b",
   token .rbrace "\x7d", token .eof ""]

/-- The program in which the `else` belongs to the inner `if`. -/
def danglingElseProgram : Program :=
  let nothing : Stmt := .block .nowhere []
  let inner : Stmt := .ifElse .nowhere (.var .nowhere "b") nothing (some nothing)
  ⟨.nowhere, [], .block .nowhere [.ifElse .nowhere (.var .nowhere "a") inner none]⟩

theorem danglingElse_program : Token.EndsOnce danglingElse ∧ Program.frames danglingElse ≤ 200 ∧
    Grammar.Program danglingElse danglingElseProgram := by
  have hends : Token.EndsOnce danglingElse :=
    ⟨danglingElse.dropLast, ⟨.eof, "", .nowhere, none⟩, rfl, by unfold Grammar.Unended; decide, rfl⟩
  have hframes : Program.frames danglingElse ≤ 200 := by decide
  have hbare : danglingElseProgram.bare = danglingElseProgram := by
    simp [Program.bare, danglingElseProgram]
  refine ⟨hends, hframes, ((ofTokens_eq_ok_iff_program hends hframes).1 _).mp ?_⟩
  exact ⟨danglingElseProgram, rfl, hbare⟩

end MiniLang
