/-
  Sums, differences and products are exact up to wrapping.

  A literal is folded into a word when it is read, and every operator wraps its result.  Taken
  together this is one wrapping at the very end: an expression of literals, `+`, `-`, `*`, minus
  signs and parentheses prints the word of its value as an integer, however large the numbers in it
  and between its operators are.

  1. **Texts** — `Arithmetic part cs v`: the text `cs` is a factor, a product or a sum with the value
     `v`.  What may stand between its tokens is a `Token.Gap`.
  2. **Reading** — `Reads part cs v ts e`: the text spells the tokens `ts`, which stand for the tree
     `e`, which has the word of `v` as its value.  One lemma for each rule of the grammar.
  3. **Running** — a program that prints such a tree does that and nothing else, in two steps.
-/
import MiniLang.Proofs.Arithmetic.Wrapping
import MiniLang.Proofs.Compiling.Coherence
import MiniLang.Proofs.Lexing.Spelling
import MiniLang.Proofs.Parsing.Interleaving

namespace MiniLang

open Parse (Level)
open Text (isDigit decimalValue)
open Token (Gap NoDigit Spells noDigit_cons ofSign spells_sign)
open Word (wrap)

/-! ## Texts -/

/-- What an arithmetic expression is made of, from the tightest to the loosest. -/
inductive Arithmetic.Part
  | factor | product | sum

/-- The level that the operators of a part belong to. -/
def Arithmetic.Part.level : Part → Option Level
  | .factor => none
  | .product => some .multiplicative
  | .sum => some .additive

/-- A text of arithmetic and its value as an integer.  Operators of one level are grouped to the
    left, and a minus sign goes with the factor behind it. -/
inductive Arithmetic : Arithmetic.Part → List Char → Int → Prop
  | literal {ds} : ds ≠ [] → (∀ d ∈ ds, isDigit d = true) → ds.length ≤ Token.digitLimit →
      Arithmetic .factor ds (decimalValue ds)
  | parens {g cs g' v} : Gap g → Arithmetic .sum cs v → Gap g' →
      Arithmetic .factor (['('] ++ (g ++ (cs ++ (g' ++ [')'])))) v
  | negated {g cs v} : Gap g → Arithmetic .factor cs v → Arithmetic .factor (['-'] ++ (g ++ cs)) (-v)
  | factor {cs v} : Arithmetic .factor cs v → Arithmetic .product cs v
  | times {cs g g' ds v w} : Arithmetic .product cs v → Gap g → Gap g' → Arithmetic .factor ds w →
      Arithmetic .product (cs ++ (g ++ (['*'] ++ (g' ++ ds)))) (v * w)
  | product {cs v} : Arithmetic .product cs v → Arithmetic .sum cs v
  | plus {cs g g' ds v w} : Arithmetic .sum cs v → Gap g → Gap g' → Arithmetic .product ds w →
      Arithmetic .sum (cs ++ (g ++ (['+'] ++ (g' ++ ds)))) (v + w)
  | minus {cs g g' ds v w} : Arithmetic .sum cs v → Gap g → Gap g' → Arithmetic .product ds w →
      Arithmetic .sum (cs ++ (g ++ (['-'] ++ (g' ++ ds)))) (v - w)

/-- A whole expression, with anything around it that is no token. -/
def IsArithmetic (text : String) (v : Int) : Prop :=
  ∃ g cs g', Gap g ∧ Arithmetic .sum cs v ∧ Gap g' ∧ text.toList = g ++ (cs ++ g')

/-! ## Reading -/

/-- How a text is read, before anything that is no digit: as tokens, which stand for a tree, which
    has a word as its value. -/
structure Arithmetic.Reads (part : Part) (cs : List Char) (v : Int) (ts : List Token) (e : Expr) : Prop where
  spells : ∀ rest, NoDigit rest → Spells cs ts rest
  tree : Grammar.Expression part.level ts e
  bare : e.bare = e
  value : ∀ limits d m, ts.length ≤ d → e.eval limits d m = .ok (wrap v) m

/-- A literal has its value at once. -/
theorem Expr.eval_lit {limits : Limits} {d : Nat} (hd : 0 < d) (v : Int) (m : Machine) :
    (Expr.lit .nowhere v).eval limits d m = .ok v m := by
  obtain ⟨d, rfl⟩ := Nat.exists_eq_succ_of_ne_zero hd.ne'
  rw [Expr.eval]
  rfl

/-- Of two operands with values the operator makes a value. -/
theorem Expr.eval_binary {limits : Limits} {d : Nat} {a b : Expr} {op : Token.Kind} {l r u : Int}
    {m : Machine} (ha : a.eval limits d m = .ok l m) (hb : b.eval limits d m = .ok r m)
    (hop : op.apply l r = .ok u) :
    (Expr.binary .nowhere a op b).eval limits (d + 1) m = .ok u m := by
  rw [Expr.eval, Eval.bind_of_ok ha, Eval.bind_of_ok hb, Eval.operate, hop]
  rfl

namespace Arithmetic.Reads

variable {g g' cs ds : List Char} {v w : Int} {ts us : List Token} {a b e : Expr}

theorem literal (hne : ds ≠ []) (hds : ∀ d ∈ ds, isDigit d = true)
    (hlimit : ds.length ≤ Token.digitLimit) :
    Reads .factor ds (decimalValue ds) [Token.ofDigits ds]
      (.lit .nowhere (wrap (decimalValue ds))) where
  spells := fun _ hrest => Token.spells_number hne hds hlimit hrest
  tree := by
    have htree : Grammar.Expression none [Token.ofDigits ds] _ := .number rfl
    rwa [Token.value_ofDigits, Option.getD_some] at htree
  bare := Expr.bare_lit _ _
  value := fun _ _ m hd => Expr.eval_lit hd _ m

theorem parens (hg : Gap g) (hr : Reads .sum cs v ts e) (hg' : Gap g') :
    Reads .factor (['('] ++ (g ++ (cs ++ (g' ++ [')'])))) v
      (ofSign .lparen '(' :: ts ++ [ofSign .rparen ')']) e where
  spells := by
    intro rest _
    have hopen : ∀ rest, Spells ['('] [ofSign .lparen '('] rest := spells_sign rfl (by decide)
    have hclose : Spells [')'] [ofSign .rparen ')'] rest := spells_sign rfl (by decide) rest
    have hinner : Spells (g ++ (cs ++ g')) ts ([')'] ++ rest) :=
      hg.spells_around hr.spells hg' (noDigit_cons (by decide))
    have hall := (hopen _).append (hinner.append hclose)
    rwa [List.append_assoc g, List.append_assoc cs] at hall
  tree := .parens ⟨rfl, rfl⟩ (.operand (.operand hr.tree))
  bare := hr.bare
  value := by
    intro limits d m hd
    refine hr.value limits d m ?_
    rw [List.length_append, List.length_cons] at hd
    omega

/-- A minus sign is a difference from zero. -/
theorem negated (hg : Gap g) (hr : Reads .factor cs v ts e) :
    Reads .factor (['-'] ++ (g ++ cs)) (-v) (ofSign .minus '-' :: ts)
      (.binary .nowhere (.lit .nowhere 0) .minus e) where
  spells := by
    intro rest hrest
    have hsign : ∀ rest, Spells ['-'] [ofSign .minus '-'] rest := spells_sign rfl (by decide)
    exact (hsign _).append ((hg.spells _).append (hr.spells rest hrest))
  tree := .minus rfl hr.tree
  bare := by rw [Expr.bare_binary, Expr.bare_lit, hr.bare]
  value := by
    intro limits d m hd
    obtain ⟨t, us, rfl, -⟩ := hr.tree.first
    obtain ⟨d, rfl⟩ := Nat.exists_eq_succ_of_ne_zero (Nat.ne_of_gt (Nat.lt_of_lt_of_le Nat.succ_pos' hd))
    have hd : us.length < d := by
      rw [List.length_cons, List.length_cons] at hd
      omega
    refine Expr.eval_binary (Expr.eval_lit (Nat.zero_lt_of_lt hd) 0 m) (hr.value limits d m hd) ?_
    · show Except.ok (wrap (0 - wrap v)) = _
      rw [show (0 : Int) = wrap 0 from rfl, Word.wrap_sub, Int.zero_sub]

/-- Two operands around a sign whose operator belongs to the level and is compatible with
    wrapping. -/
theorem joined {l : Level} {part part' : Part} {c : Char} {op : Token.Kind} {u : Int}
    (hpart : part.level = some l) (hpart' : part'.level = l.tighter?) (hop : l.holds op = true)
    (hsign : Token.Kind.ofSign? c = some op) (halone : c ∉ ['=', '!', '<', '>', '/'])
    (happly : op.apply (wrap v) (wrap w) = .ok (wrap u))
    (hl : Reads part cs v ts a) (hg : Gap g) (hg' : Gap g') (hr : Reads part' ds w us b) :
    Reads part (cs ++ (g ++ ([c] ++ (g' ++ ds)))) u (ts ++ ofSign op c :: us)
      (.binary .nowhere a op b) where
  spells := by
    intro rest hrest
    have hdigit : isDigit c = false := (Text.isSignLike_iff.mp (Token.isSignLike_of_sign hsign)).2.1
    have hright : Spells ([c] ++ (g' ++ ds)) (ofSign op c :: us) rest :=
      (spells_sign hsign halone _).append ((hg'.spells _).append (hr.spells rest hrest))
    refine (hl.spells _ ?_).append ((hg.spells _).append hright)
    rw [List.append_assoc]
    exact hg.noDigit (noDigit_cons hdigit)
  tree := by
    have hleft := hl.tree
    have hright := hr.tree
    rw [hpart] at hleft ⊢
    rw [hpart'] at hright
    exact .binary hleft hop hright
  bare := by rw [Expr.bare_binary, hl.bare, hr.bare]
  value := by
    intro limits d m hd
    rw [List.length_append, List.length_cons] at hd
    obtain ⟨d, rfl⟩ := Nat.exists_eq_succ_of_ne_zero (show d ≠ 0 by omega)
    exact Expr.eval_binary (hl.value limits d m (by omega)) (hr.value limits d m (by omega)) happly

/-- What is tighter may stand for what is looser. -/
theorem looser {l : Level} {part part' : Part} (hpart : part.level = some l)
    (hpart' : part'.level = l.tighter?) (hr : Reads part' cs v ts e) : Reads part cs v ts e where
  spells := hr.spells
  tree := by
    have htree := hr.tree
    rw [hpart'] at htree
    rw [hpart]
    exact .operand htree
  bare := hr.bare
  value := hr.value

end Arithmetic.Reads

/-- By induction on the text: what it spells, what that stands for and what that comes to. -/
theorem Arithmetic.reads {part : Part} {cs : List Char} {v : Int} (h : Arithmetic part cs v) :
    ∃ ts e, Reads part cs v ts e := by
  induction h with
  | literal hne hds hlimit => exact ⟨_, _, .literal hne hds hlimit⟩
  | parens hg _ hg' ih =>
    obtain ⟨ts, e, hr⟩ := ih
    exact ⟨_, _, .parens hg hr hg'⟩
  | negated hg _ ih =>
    obtain ⟨ts, e, hr⟩ := ih
    exact ⟨_, _, .negated hg hr⟩
  | factor _ ih =>
    obtain ⟨ts, e, hr⟩ := ih
    exact ⟨ts, e, .looser rfl rfl hr⟩
  | product _ ih =>
    obtain ⟨ts, e, hr⟩ := ih
    exact ⟨ts, e, .looser rfl rfl hr⟩
  | times _ hg hg' _ ihl ihr =>
    obtain ⟨ts, a, hl⟩ := ihl
    obtain ⟨us, b, hr⟩ := ihr
    exact ⟨_, _, .joined (l := .multiplicative) rfl rfl rfl rfl (by decide)
      (congrArg Except.ok (Word.wrap_mul _ _)) hl hg hg' hr⟩
  | plus _ hg hg' _ ihl ihr =>
    obtain ⟨ts, a, hl⟩ := ihl
    obtain ⟨us, b, hr⟩ := ihr
    exact ⟨_, _, .joined (l := .additive) rfl rfl rfl rfl (by decide)
      (congrArg Except.ok (Word.wrap_add _ _)) hl hg hg' hr⟩
  | minus _ hg hg' _ ihl ihr =>
    obtain ⟨ts, a, hl⟩ := ihl
    obtain ⟨us, b, hr⟩ := ihr
    exact ⟨_, _, .joined (l := .additive) rfl rfl rfl rfl (by decide)
      (congrArg Except.ok (Word.wrap_sub _ _)) hl hg hg' hr⟩

/-! ## Running -/

/-- The program that prints an expression, without places. -/
def printing (e : Expr) : Program :=
  ⟨.nowhere, [], .block .nowhere [.expr .nowhere (.call .nowhere printName [e])]⟩

/-- Printing takes a step for the body of the program and one for the statement in it. -/
theorem exec_printing {limits : Limits} {e : Expr} {v : Int} {d : Nat} {m : Machine}
    (hclock : m.steps + 1 < limits.clock) (he : ∀ m, e.eval limits d m = .ok v m) :
    (printing e).body.exec limits (d + 4) m =
      .ok .next { m with printed := m.printed.push v, steps := m.steps + 2 } := by
  have hcall : ∀ m, (Expr.call .nowhere printName [e]).eval limits (d + 2) m =
      .ok 0 { m with printed := m.printed.push v } := by
    intro m
    rw [Expr.eval, callFunction, if_pos rfl]
    exact Eval.bind_of_ok (he m)
  have hstatement : ∀ m : Machine, m.steps < limits.clock →
      (Stmt.expr .nowhere (.call .nowhere printName [e])).exec limits (d + 3) m =
        .ok .next { m with printed := m.printed.push v, steps := m.steps + 1 } := by
    intro m hm
    rw [Stmt.exec, Eval.bind_of_ok (Eval.tick_of_lt hm _)]
    exact Eval.bind_of_ok (hcall _)
  rw [printing, Stmt.exec, Eval.bind_of_ok (Eval.tick_of_lt (Nat.lt_of_succ_lt hclock) _)]
  exact Eval.bind_of_ok (hstatement _ hclock)

/-- The run of it leaves the value behind and nothing else. -/
theorem run_printing {limits : Limits} {e : Expr} {v : Int} {n : Nat} (hclock : 2 ≤ limits.clock)
    (hframes : n + 4 ≤ limits.frames) (he : ∀ d m, n ≤ d → e.eval limits d m = .ok v m) :
    (printing e).run limits = ⟨⟨[], [], #[v], 2⟩, none⟩ := by
  obtain ⟨d, hd⟩ := Nat.exists_eq_add_of_le' hframes
  have hbody : (printing e).body.exec limits limits.frames ⟨[], [mainRecord], #[], 0⟩ =
      .ok .next ⟨[], [mainRecord], #[v], 2⟩ := by
    rw [hd]
    exact exec_printing hclock fun m => he (d + n) m (Nat.le_add_left n d)
  have hwork : (printing e).work limits (printing e).start = .ok .next ⟨[], [], #[v], 2⟩ :=
    Eval.within_of_ok (m := (printing e).start) hbody
  exact Program.run_of_ok hwork

/-- The source that prints an expression. -/
def printingSource (text : String) : String := "print(" ++ text ++ ");"

/-- The keyword in it. -/
def Token.ofPrint : Token := .ofIdentifier ['p', 'r', 'i', 'n', 't']

/-- The tokens of it. -/
def printingTokens (ts : List Token) : List Token :=
  [Token.ofPrint] ++ ([ofSign .lparen '('] ++ (ts ++ [ofSign .rparen ')', ofSign .semi ';']))

theorem statement_printing {ts : List Token} {e : Expr}
    (h : Grammar.Expression (some .equality) ts e) :
    Grammar.Statement (printingTokens ts) (.expr .nowhere (.call .nowhere printName [e])) := by
  have hrow : Grammar.Separated [ts] (ts ++ []) := .cons .nil
  rw [List.append_nil] at hrow
  have hcall : Grammar.Call (Token.ofPrint :: ofSign .lparen '(' :: ts ++ [ofSign .rparen ')'])
      (.call .nowhere Token.ofPrint.lexeme [e]) :=
    @Grammar.Call.mk _ _ _ _ [(ts, e)] (.inr (by decide)) ⟨rfl, rfl⟩ hrow
      (List.forall_mem_singleton.mpr h)
  have hstatement := Grammar.Statement.call (s := ofSign .semi ';') hcall rfl
  rwa [List.append_assoc] at hstatement

theorem spells_printing {text : String} {ts : List Token}
    (h : ∀ rest, NoDigit rest → Spells text.toList ts rest) :
    Spells (printingSource text).toList (printingTokens ts) [] := by
  have hopen : ∀ rest, Spells ['('] [ofSign .lparen '('] rest := spells_sign rfl (by decide)
  have hclose : Spells [')'] [ofSign .rparen ')'] [';'] := spells_sign rfl (by decide) _
  have hsemi : Spells [';'] [ofSign .semi ';'] [] := spells_sign rfl (by decide) _
  have hname : Spells ['p', 'r', 'i', 'n', 't'] [Token.ofPrint]
      (['('] ++ (text.toList ++ [')', ';']) ++ []) := by
    have hletters : ['r', 'i', 'n', 't'].all Text.isNameRest = true := by decide +kernel
    refine Token.spells_identifier (by decide +kernel) (List.all_eq_true.mp hletters) ?_
    intro d hd
    rw [← Option.some.inj hd]
    decide +kernel
  have htext : Spells text.toList ts ([')', ';'] ++ []) := h _ (noDigit_cons (by decide))
  have hall := hname.append ((hopen _).append (htext.append (hclose.append hsemi)))
  have hchars : (printingSource text).toList =
      ['p', 'r', 'i', 'n', 't'] ++ (['('] ++ (text.toList ++ [')', ';'])) := by
    rw [printingSource, String.toList_append, String.toList_append, List.append_assoc]
    rfl
  rw [hchars]
  exact hall

/-- It is parsed as the program that prints the tree of the text. -/
theorem program_of_arithmetic {text : String} {v : Int} (h : IsArithmetic text v) :
    ∃ tokens e n, Token.ofSource (printingSource text) = .ok tokens ∧
      Grammar.Program tokens (printing e) ∧ (printing e).bare = printing e ∧
      n + 5 = tokens.length ∧
      ∀ limits d m, n ≤ d → e.eval limits d m = .ok (wrap v) m := by
  obtain ⟨g, cs, g', hg, hcs, hg', htext⟩ := h
  obtain ⟨ts, e, hr⟩ := hcs.reads
  have hspells : Spells (printingSource text).toList (printingTokens ts) [] := by
    refine spells_printing fun rest hrest => ?_
    rw [htext]
    exact hg.spells_around hr.spells hg' hrest
  obtain ⟨us, stop, hsource, halike⟩ := Token.ofSource_of_spells hspells
  have hstatement := statement_printing (.operand (.operand hr.tree))
  have hprogram : Grammar.Program (printingTokens ts ++ [.endAt stop]) (printing e) := by
    have hitems := @Grammar.Program.mk [(printingTokens ts, .statement _)] (.endAt stop)
      (List.forall_mem_singleton.mpr (.statement hstatement)) rfl
    rwa [List.map_singleton, List.flatten_singleton] at hitems
  refine ⟨us ++ [.endAt stop], e, ts.length, hsource, hprogram.alike _ (halike.append (.refl _)), ?_,
    ?_, hr.value⟩
  · simp only [printing, Program.bare, Stmt.bare_block, Stmt.bare_expr, Expr.bare_call,
      List.map_cons, List.map_nil, hr.bare]
  · have hlength := congrArg List.length halike
    simp only [List.length_map, printingTokens, List.length_append, List.length_cons,
      List.length_nil] at hlength
    rw [List.length_append, ← hlength, List.length_singleton]
    omega

theorem line_ne_empty (v : Int) : Machine.line v ≠ "" := by
  intro h
  have hlength := congrArg String.length h
  rw [Machine.line, String.length_append] at hlength
  exact Nat.succ_ne_zero _ hlength

/-- **Sums, differences and products are exact up to wrapping.**  Take a text of literals with
    digits of any scripts, operators `+`, `-` and `*`, minus signs and parentheses, in any layout.
    The source that prints it has tokens, and with frames enough to parse so many of them and time
    for two steps it is compiled and run without an error.  It prints the word of the value that the
    text has as an integer, however often something was wrapped on the way to it. -/
theorem arithmetic_is_exact {text : String} {v : Int} (h : IsArithmetic text v) :
    ∃ tokens, Token.ofSource (printingSource text) = .ok tokens ∧
      ∀ limits : Limits, Program.frames tokens ≤ limits.frames → 2 ≤ limits.clock →
        ∀ graphs, ∃ r, Report.ofSource limits graphs (printingSource text) = .ok r ∧
          r.error = none ∧ r.output = Machine.line (wrap v) ∧ r.text = r.output ∧
          r.steps = 2 ∧ r.globals = [] := by
  obtain ⟨tokens, e, n, hsource, hprogram, hbare, hlength, hvalue⟩ := program_of_arithmetic h
  refine ⟨tokens, hsource, ?_⟩
  intro limits hframes hclock graphs
  obtain ⟨p, hp, hpbare⟩ := ofTokens_of_program hprogram hframes
  have hcompiled : Compilation.ofSource limits.frames graphs (printingSource text) =
      .ok (.succeeded graphs tokens p) := by
    simp only [Compilation.ofSource, hsource, hp]
  have hrun : (printing e).run limits = ⟨⟨[], [], #[wrap v], 2⟩, none⟩ := by
    refine run_printing hclock ?_ (hvalue limits)
    rw [Program.frames] at hframes
    omega
  have hsame := run_of_bare (hpbare.trans hbare.symm) limits
  rw [hrun] at hsame
  have hreport : Report.ofSource limits graphs (printingSource text) =
      .ok (.ofCompilation limits (.succeeded graphs tokens p)) := by
    rw [Report.ofSource, hcompiled]
    rfl
  have herror : (p.run limits).error = none := by
    rw [Outcome.error, Option.map_eq_none_iff.mp hsame.halt]
    rfl
  have houtput : (p.run limits).output = Machine.line (wrap v) :=
    hsame.output.trans String.empty_append
  have hremarks : (Compilation.succeeded graphs tokens p).diagnostics = [] := by
    have hfunctions : p.functions = [] := List.map_eq_nil_iff.mp (congrArg Program.functions hpbare)
    rw [Compilation.succeeded, hfunctions]
    cases graphs <;> rfl
  have htext : (Report.ofCompilation limits (.succeeded graphs tokens p)).text =
      Report.orNothing (Machine.line (wrap v)) := by
    show Report.orNothing ((Compilation.succeeded graphs tokens p).diagnostics.infoText ++
      (p.run limits).output ++ ((p.run limits).error.map Issue.report).getD "") = _
    rw [hremarks, herror, houtput, show Diagnostics.infoText [] = "" from rfl, String.empty_append]
    exact congrArg _ String.append_empty
  rw [Report.orNothing, if_neg (line_ne_empty _)] at htext
  exact ⟨_, hreport, herror, houtput, htext.trans houtput.symm, hsame.steps, hsame.globals⟩

/-- A minus sign before a literal that is no word, a digit of another script, and a comment. -/
def foldedText : String := "-(9223372036854775808)*٣ -/**/ 1"

/-- Its value is far below the words, and one below a multiple of `2^63`. -/
theorem folded_exact : IsArithmetic foldedText (-9223372036854775808 * 3 - 1) ∧
    ∃ tokens, Token.ofSource (printingSource foldedText) = .ok tokens ∧
      Program.frames tokens ≤ 155 ∧ 2 ≤ (Limits.mk none 2 155).clock ∧
      ∃ r, Report.ofSource ⟨none, 2, 155⟩ true (printingSource foldedText) = .ok r ∧
        r.error = none ∧ r.output = "9223372036854775807\n" ∧ r.text = r.output ∧ r.steps = 2 ∧
        r.globals = [] := by
  have hliteral : ∀ {ds : List Char} {n : Nat}, ds ≠ [] → ds.all isDigit = true →
      ds.length ≤ Token.digitLimit → decimalValue ds = n → Arithmetic .factor ds n := by
    rintro ds n hne hds hlimit rfl
    exact .literal hne (List.all_eq_true.mp hds) hlimit
  have hfront : Arithmetic .sum "-(9223372036854775808)*٣".toList (-9223372036854775808 * 3) := by
    have hlarge : Arithmetic .factor "9223372036854775808".toList (9223372036854775808 : Nat) :=
      hliteral (by decide) (by decide +kernel) (by decide +kernel) (by decide +kernel)
    have hthree : Arithmetic .factor ['٣'] (3 : Nat) :=
      hliteral (by decide) (by decide +kernel) (by decide +kernel) (by decide +kernel)
    have hparens := Arithmetic.parens .nil (.product (.factor hlarge)) .nil
    exact .product (.times (.factor (.negated .nil hparens)) .nil .nil hthree)
  have hone : Arithmetic .factor ['1'] (1 : Nat) :=
    hliteral (by decide) (by decide +kernel) (by decide +kernel) (by decide +kernel)
  have hblank : Gap [' '] := .blank (by decide) .nil
  have hcomment : Gap ['/', '*', '*', '/', ' '] :=
    @Gap.blockComment [] _ (by decide) hblank
  have htext : IsArithmetic foldedText (-9223372036854775808 * 3 - 1) :=
    ⟨[], _, [], .nil, .minus hfront hblank hcomment (.factor hone), .nil, by decide +kernel⟩
  have hcount : (Token.ofSource (printingSource foldedText)).toOption.map Program.frames =
      some 155 := by decide +kernel
  obtain ⟨tokens, hsource, hruns⟩ := arithmetic_is_exact htext
  rw [hsource] at hcount
  have hframes : Program.frames tokens ≤ 155 := (Option.some.inj hcount).le
  refine ⟨htext, tokens, hsource, hframes, by decide, ?_⟩
  obtain ⟨r, hr, herror, houtput, htold⟩ := hruns ⟨none, 2, 155⟩ hframes (by decide) true
  have hline : Machine.line (wrap (-9223372036854775808 * 3 - 1)) = "9223372036854775807\n" := by
    decide +kernel
  exact ⟨r, hr, herror, houtput.trans hline, htold⟩

end MiniLang
