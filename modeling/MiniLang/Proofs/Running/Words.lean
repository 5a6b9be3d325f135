/-
  Every value of a run is a word.

  1. **Reached states** — what a worded task hands on is worded and begins in a worded state, so the
     invariant holds wherever a run comes.
  2. **Output** — `Text.Decimal v text`: the text is the canonical decimal one of `v`.  The line of a
     value is such a text with a line feed behind it.
  3. **Runs** — a program that is parsed from a source is worded, and in a run of a worded program
     all states are made of words.
-/
import MiniLang.Proofs.Printing.RoundTrip
import MiniLang.Proofs.Running.Worded

namespace MiniLang

open Word (InRange)

/-! ## Reached states -/

section

variable {limits : Limits} {d : Nat}

/-- What a worded statement hands on is worded, and begins in a worded state. -/
theorem worded_of_leads {s : Stmt} {m m' : Machine} {t : Task} (hs : s.Worded) (hm : m.Worded)
    (h : s.Leads limits d m t m') : m'.Worded ∧ t.Worded := by
  have hyields := evaluator_yields limits d
  cases h with
  | @block before span s behind _ _ hbefore =>
    cases hs with
    | block hbody =>
      obtain ⟨hfirst, hrest⟩ := List.forall_mem_append.mp hbody
      have hsequence : Yields _ Completion.Worded :=
        .sequence fun s hs => hyields.exec s (hfirst s hs)
      exact ⟨hsequence.after_ok hm hbefore, hrest s List.mem_cons_self⟩
  | expr => cases hs with | expr he => exact ⟨hm, he⟩
  | assign => cases hs with | assign he => exact ⟨hm, he⟩
  | cond => cases hs with | ifElse hcond _ _ => exact ⟨hm, hcond⟩
  | yes hc _ =>
    cases hs with
    | ifElse hcond hyes _ => exact ⟨(hyields.eval _ hcond).after_ok hm hc, hyes⟩
  | no hc =>
    cases hs with
    | ifElse hcond _ hno => exact ⟨(hyields.eval _ hcond).after_ok hm hc, hno _ rfl⟩
  | test hrounds _ =>
    cases hs with
    | loop hcond hbody =>
      exact ⟨Yields.rounds (hyields.eval _ hcond) (hyields.exec _ hbody) hrounds hm, hcond⟩
  | body hrounds _ hc _ =>
    cases hs with
    | loop hcond hbody =>
      have hround := Yields.rounds (hyields.eval _ hcond) (hyields.exec _ hbody) hrounds hm
      exact ⟨(hyields.eval _ hcond).after_ok hround hc, hbody⟩
  | ret => cases hs with | ret he => exact ⟨hm, he _ rfl⟩

/-- What a worded task hands on is worded, and begins in a worded state. -/
theorem worded_of_begins {t t' : Task} {m m' : Machine} (ht : t.Worded) (hm : m.Worded)
    (h : t.Begins limits d m t' m') : m'.Worded ∧ t'.Worded := by
  have hyields := evaluator_yields limits d
  cases h with
  | left => cases ht with | binary hl _ => exact ⟨hm, hl⟩
  | right hl' => cases ht with | binary hl hr => exact ⟨(hyields.eval _ hl).after_ok hm hl', hr⟩
  | callee => cases ht with | call hargs => exact ⟨hm, hargs⟩
  | @inside s _ _ _ _ htick hleads =>
    exact worded_of_leads ht ((Yields.tick limits s.span).after_ok hm htick) hleads
  | printed => exact ⟨hm, ht _ List.mem_cons_self⟩
  | @argument span name before e behind f vs _ _ _ _ hcallee hbefore =>
    obtain ⟨hfirst, hrest⟩ := List.forall_mem_append.mp ht
    have hm₁ := (Yields.callee span name _).after_ok hm hcallee
    have heach : Yields _ _ := .each fun e he => hyields.eval e (hfirst e he)
    exact ⟨heach.after_ok hm₁ hbefore, hrest e List.mem_cons_self⟩
  | @entered span name args f vs _ m₁ m' _ hcallee hargs =>
    have hm₁ := (Yields.callee span name _).after_ok hm hcallee
    have heach : Yields _ _ := .each fun e he => hyields.eval e (ht e he)
    have hrecord : Record.Worded ⟨f.name, .ofPairs f.params vs⟩ :=
      Table.forall_ofPairs (heach.value m₁ vs m' hm₁ hargs)
    exact ⟨(heach.after_ok hm₁ hargs).enter hrecord,
      (Yields.callee span name _).value _ _ _ hm hcallee⟩

/-- By induction on how often work was handed on. -/
theorem worded_of_reaches {p : Program} (hp : p.Worded) {t : Task} {m : Machine}
    (h : p.Reaches limits d t m) : m.Worded ∧ t.Worded := by
  unfold Program.Reaches at h
  induction h with
  | here => exact ⟨hp.entry, hp.body⟩
  | deeper _ hbegins ih => exact worded_of_begins ih.2 ih.1 hbegins

end

/-! ## Output -/

namespace Text

/-- The canonical decimal text of an integer: the digits of its size, of which the first one is
    zero only if it is the only one, behind a minus sign if the integer is negative. -/
def Decimal (v : Int) (text : List Char) : Prop :=
  ∃ digits, text = (if v < 0 then '-' :: digits else digits) ∧ digits ≠ [] ∧
    (∀ c ∈ digits, c.isDigit = true) ∧ (digits.head? = some '0' → digits = ['0']) ∧
    decimalValue digits = v.natAbs

/-- Only the digits of zero begin with a zero: by induction on their number. -/
theorem toDigits_of_head_zero : ∀ n : Nat, (Nat.toDigits 10 n).head? = some '0' → n = 0 := by
  intro n
  induction n using Nat.strongRecOn with
  | ind n ih =>
    intro h
    rcases Nat.lt_or_ge n 10 with hlt | hge
    · rw [Nat.toDigits_of_lt_base hlt, List.head?_cons, Option.some.injEq] at h
      exact Nat.digitChar_eq_zero.mp h
    · have hfront : (Nat.toDigits 10 (n / 10)).head? = some '0' := by
        rwa [Nat.toDigits_of_base_le (by decide) hge,
          List.head?_append_of_ne_nil _ Nat.toDigits_ne_nil] at h
      have := ih (n / 10) (by omega) hfront
      omega

theorem decimal_repr (v : Int) : Decimal v v.repr.toList := by
  refine ⟨Nat.toDigits 10 v.natAbs, ?_, Nat.toDigits_ne_nil, ?_, ?_, decimalValue_toDigits _⟩
  · cases v with
    | ofNat n =>
      rw [if_neg (show ¬ Int.ofNat n < 0 by simp)]
      exact String.toList_ofList
    | negSucc n =>
      rw [if_pos (Int.negSucc_lt_zero n)]
      show ("-" ++ Nat.repr (n + 1)).toList = _
      rw [String.toList_append, Nat.repr_eq_ofList_toDigits]
      exact congrArg ('-' :: ·) String.toList_ofList
  · exact fun c hc => Nat.isDigit_of_mem_toDigits (by decide) (by decide) hc
  · intro h
    rw [toDigits_of_head_zero _ h]
    rfl

end Text

/-- All variables and locals of a state are words, and its output is made of lines, each the
    canonical decimal text of a word with a line feed behind it. -/
structure Machine.Words (m : Machine) : Prop where
  globals : ∀ name v, (name, Symbol.variable v) ∈ m.globals → InRange v
  locals : ∀ record ∈ m.stack, ∀ name v, (name, v) ∈ record.locals → InRange v
  output : ∃ lines : List (Int × List Char),
    (∀ l ∈ lines, InRange l.1 ∧ Text.Decimal l.1 l.2) ∧
    m.output.toList = lines.flatMap fun l => l.2 ++ ['\n']

theorem Machine.Worded.words {m : Machine} (hm : m.Worded) : m.Words where
  globals := fun name v h => hm.globals (name, .variable v) h
  locals := fun record hrecord name v h => hm.locals record hrecord (name, v) h
  output := by
    refine ⟨m.printed.toList.map fun v => (v, v.repr.toList), ?_, ?_⟩
    · refine List.forall_mem_map.mpr ?_
      intro v hv
      exact ⟨hm.printed v hv, Text.decimal_repr v⟩
    · rw [Machine.output_toList, List.flatMap_map]
      simp only [line, String.toList_append]
      rfl

/-! ## Runs -/

theorem Program.Worded.run {p : Program} (hp : p.Worded) (limits : Limits) :
    (p.run limits).machine.Worded := by
  rw [Program.run_machine, Program.work, Eval.after_within]
  exact (((evaluator_yields limits limits.frames).exec p.body hp.body).after _ hp.entry).leave

/-- **Every value of a run is a word.**  Every program that is parsed from a source is worded.  In a
    run of a worded program, under any limits, every task begins in a state made of words and leaves
    one, also where it fails; the values of expressions and calls and the values returned are words;
    and so are the global variables and the printed values at the end. -/
theorem values_are_words :
    (∀ source tokens frames program, Token.ofSource source = .ok tokens →
      Program.ofTokens frames tokens = .ok program → program.Worded) ∧
    ∀ program : Program, program.Worded → ∀ limits : Limits,
      (∀ d t m, program.Reaches limits d t m →
        m.Words ∧ ((t.perform limits d).after m).Words ∧
        ∀ v m', t.perform limits d m = .ok (some v) m' → InRange v) ∧
      (program.run limits).machine.Words ∧
      ∀ name v, (name, v) ∈ (program.run limits).globals → InRange v := by
  constructor
  · intro source tokens frames program hsource hprogram
    exact (parsed_of_ofTokens hsource hprogram).worded
  · intro program hprogram limits
    refine ⟨?_, (hprogram.run limits).words, ?_⟩
    · intro d t m hreaches
      obtain ⟨hm, ht⟩ := worded_of_reaches hprogram hreaches
      have hyields := perform_yields limits d ht
      refine ⟨hm.words, (hyields.after m hm).words, ?_⟩
      intro v m' h
      exact hyields.value m _ m' hm h v rfl
    · intro name v h
      obtain ⟨⟨key, symbol⟩, hentry, hvalue⟩ := List.mem_filterMap.mp h
      cases symbol with
      | function f => cases hvalue
      | «variable» w =>
        cases hvalue
        exact (hprogram.run limits).words.globals _ _ hentry

/-- A number that is folded to `-2^63`, and the quotient of it that is no word before it is
    wrapped. -/
def edge : String := "x=9223372036854775808;print(x/-1);"

/-- The tree of `edge`, without places. -/
def edgeProgram : Program :=
  { span := .nowhere
    functions := []
    body := .block .nowhere [
      .assign .nowhere "x" (.lit .nowhere (-0x8000000000000000)),
      .expr .nowhere (.call .nowhere printName [.binary .nowhere (.var .nowhere "x") .slash
        (.binary .nowhere (.lit .nowhere 0) .minus (.lit .nowhere 1))])] }

theorem edge_words :
    (∃ tokens program, Token.ofSource edge = .ok tokens ∧
      Program.ofTokens 500 tokens = .ok program ∧ program.Worded) ∧
    edgeProgram.Worded ∧
    ∃ s m, edgeProgram.Reaches ⟨some 9, 0, 9⟩ 8 (.stmt s) m ∧
      m.globalVars = [("x", -0x8000000000000000)] ∧ m.Words ∧
      (edgeProgram.run ⟨some 9, 0, 9⟩).output = "-9223372036854775808\n" ∧
      (edgeProgram.run ⟨some 9, 0, 9⟩).machine.Words := by
  have hread : ((Token.ofSource edge).toOption.bind fun tokens =>
      (Program.ofTokens 500 tokens).toOption).isSome = true := by decide +kernel
  obtain ⟨program, hsome⟩ := Option.isSome_iff_exists.mp hread
  obtain ⟨tokens, htokens, hprogram⟩ := Option.bind_eq_some_iff.mp hsome
  have hsource : Token.ofSource edge = .ok tokens := Token.eq_ok_of_toOption htokens
  have hparsed : Program.ofTokens 500 tokens = .ok program := Token.eq_ok_of_toOption hprogram
  have hworded : edgeProgram.Worded := by
    refine ⟨List.forall_mem_nil _, .block ?_⟩
    have hassign : (Stmt.assign .nowhere "x" (.lit .nowhere (-0x8000000000000000))).Worded :=
      .assign (.lit (by decide))
    have hquotient : (Expr.binary .nowhere (.var .nowhere "x") .slash
        (.binary .nowhere (.lit .nowhere 0) .minus (.lit .nowhere 1))).Worded :=
      .binary .var (.binary (.lit (by decide)) (.lit (by decide)))
    have hprint : (Stmt.expr .nowhere (.call .nowhere printName [_])).Worded :=
      .expr (.call (List.forall_mem_singleton.mpr hquotient))
    exact List.forall_mem_cons.mpr ⟨hassign, List.forall_mem_singleton.mpr hprint⟩
  -- the statement behind the assignment begins in the state that the assignment leaves
  have hreaches : edgeProgram.Reaches ⟨some 9, 0, 9⟩ 8 _ _ :=
    .deeper .here (.inside rfl (.block [_] rfl))
  obtain ⟨hreached, hrun, -⟩ := values_are_words.2 edgeProgram hworded ⟨some 9, 0, 9⟩
  refine ⟨⟨tokens, program, hsource, hparsed, values_are_words.1 _ _ _ _ hsource hparsed⟩, hworded,
    _, _, hreaches, ?_, (hreached _ _ _ hreaches).1, ?_, hrun⟩
  · rfl
  · decide +kernel

end MiniLang
