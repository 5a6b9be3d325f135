/-
  The calls that a failure tells are a chain of calls in the program.

  A failure tells the names of the live calls, the innermost first, and a place.  Both can be found
  in the tree: each name is called in the body that runs under the next one, and the place is that of
  a node inside the innermost body.

  1. **Chains** — `p.Chain calls₀ nodes₀ calls nodes`: from some nodes, inside some live calls, calls
     by name lead to the nodes of another body, inside those calls and the new ones.
  2. **Reached** — whatever a task comes to is a node at the end of such a chain, which begins at the
     node of the task; functions that are overwritten while their bodies run do not matter, because
     nothing is made known in their place (`chain_of_reaches`).
  3. **Failures** — a task fails at the place of its own node, and tells the calls that were live when
     it began.  So every failure has its chain (`chain_of_origin`): that of a run begins at the body
     of the program, and that of an argument at the argument, inside the calls of the caller.
  4. **Call stacks** — in a compiled program the names tell which bodies these are, and the chain can
     be read off them (`Program.CallStack`).
-/
import MiniLang.Proofs.Running.Footprint

namespace MiniLang

/-! ## Chains -/

/-- Calls by name lead from some nodes, inside some live calls, to others inside more. -/
inductive Program.Chain (p : Program) (calls₀ : List String) (nodes₀ : List Node) :
    List String → List Node → Prop
  | here : Chain p calls₀ nodes₀ calls₀ nodes₀
  | call {calls nodes span name args f} : Chain p calls₀ nodes₀ calls nodes →
      .expr (.call span name args) ∈ nodes → name ≠ printName → p.definition? name = some f →
      Chain p calls₀ nodes₀ (name :: calls) f.body.nodes

/-! ## Reached -/

theorem Machine.calls_eq_of_outline {m m' : Machine} (h : m'.outline = m.outline) :
    m'.calls = m.calls := by
  have hcalls : ∀ m : Machine, m.calls = m.outline.map (·.1) := by
    intro m
    rw [calls, outline, List.map_map]
    rfl
  rw [hcalls, hcalls, h]

section

variable {p : Program} {limits : Limits} {d d₀ : Nat} {t t₀ : Task} {m m₀ m' : Machine}
  {fault : Fault} {span : Span}

/-- By induction on how often work was handed on. -/
theorem chain_of_reaches (hm₀ : p.Knows m₀) (h : t₀.Reaches limits d₀ m₀ d t m) :
    ∃ nodes, p.Chain m₀.calls t₀.node.nodes m.calls nodes ∧ t.node.nodes ⊆ nodes := by
  induction h with
  | here => exact ⟨_, .here, List.Subset.refl _⟩
  | @deeper d t m t' m' hreaches hbegins ih =>
    obtain ⟨nodes, hchain, hinside⟩ := ih
    have hknows := knows_of_reaches hm₀ hreaches
    cases hbegins.hands Machine.lasting_outline with
    | below hnode hsame =>
      rw [← Machine.calls_eq_of_outline hsame] at hchain
      refine ⟨nodes, hchain, ?_⟩
      rcases hnode with hnode | hchild
      · rw [hnode]
        exact hinside
      · exact List.Subset.trans hchild.nodes_subset hinside
    | @body _ name _ f _ _ m₁ hname hcallee hsame =>
      have hdefinition := hknows _ _ (Machine.get?_of_callee? hcallee)
      have hnext := hchain.call (hinside (Node.self_mem_nodes _)) hname hdefinition
      obtain ⟨-, rfl⟩ := Program.mem_of_definition? hdefinition
      rw [← Machine.calls_eq_of_outline hsame] at hnext
      exact ⟨_, hnext, List.Subset.refl _⟩

/-- A task fails at the place of its node, inside the calls that were live when it began. -/
theorem Task.Fails.place (h : t.Fails limits d m fault span m') :
    t.node.span = span ∧ m'.calls = m.calls := by
  have hkeeps := evaluator_keeps Machine.lasting_outline limits d
  cases h with
  | operate hl hr _ =>
    have hsame := ((hkeeps.eval _).of_ok hr).trans ((hkeeps.eval _).of_ok hl)
    exact ⟨rfl, Machine.calls_eq_of_outline hsame⟩
  | strayStmt htick =>
    have hsame := (Eval.Keeps.tick Machine.lasting_outline limits _).of_ok htick
    exact ⟨rfl, Machine.calls_eq_of_outline hsame⟩
  | read _ | strayExpr | stepLimit _ _ | print _ | callee _ _ | arity _ _ _ => exact ⟨rfl, rfl⟩

/-! ## Failures -/

/-- The calls that a failure tells are at the end of a chain from the task, and its place is that of
    a node there. -/
theorem chain_of_origin {calls : List String} (hm₀ : p.Knows m₀)
    (h : t₀.Origin limits d₀ m₀ fault span calls m') :
    ∃ nodes n, p.Chain m₀.calls t₀.node.nodes calls nodes ∧ n ∈ nodes ∧ n.span = span := by
  obtain ⟨d', t, m, m₁, hreaches, hfails, hcalls, -⟩ := h
  obtain ⟨nodes, hchain, hinside⟩ := chain_of_reaches hm₀ hreaches
  obtain ⟨hspan, hsame⟩ := hfails.place
  rw [← hsame, ← hcalls] at hchain
  exact ⟨nodes, t.node, hchain, hinside (Node.self_mem_nodes _), hspan⟩

/-- The failure of a run, in any program. -/
theorem chain_of_run {calls : List String}
    (h : (p.run limits).halt = some (.failed fault span calls)) :
    ∃ nodes n, p.Chain [mainRecord.function] p.body.nodes calls nodes ∧ n ∈ nodes ∧
      n.span = span := by
  have hpassed : p.start ∈ p.passed limits := List.mem_cons_self
  have hstart : p.Knows p.start := p.knows_of_passed hpassed
  have hentry : p.Knows p.entry := hstart
  exact chain_of_origin hentry (Program.origin_of_run h)

/-- The failure of an argument belongs to the calls of the caller, and to what the argument itself
    calls: the function that it is an argument for is not among the live calls yet. -/
theorem chain_of_argument {span₁ : Span} {name : String} {args : List Expr} {e : Expr}
    {calls : List String} (hm : p.Knows m)
    (hbegins : (Task.call span₁ name args).Begins limits d m (.expr e) m₀)
    (h : e.eval limits d m₀ = .error (.failed fault span calls) m') :
    ∃ nodes n, p.Chain m.calls e.nodes calls nodes ∧ n ∈ nodes ∧ n.span = span := by
  have horigin := ((evaluator_accounts limits d).eval e m₀).origin fault span calls m' h
  have hknows := knows_of_reaches hm (.deeper .here hbegins)
  have hcalls : m₀.calls = m.calls := by
    cases hbegins.hands Machine.lasting_outline with
    | below _ hsame => exact Machine.calls_eq_of_outline hsame
  rw [← hcalls]
  exact chain_of_origin hknows horigin

end

/-! ## Call stacks -/

/-- The body that runs under a name on a call stack: that of the program, or that of the last
    definition of the name. -/
def Program.bodyOf? (p : Program) (name : String) : Option Stmt :=
  if name = "<main>" then some p.body else (p.definition? name).map (·.body)

/-- The calls and the place that a failure tells can be found in the program. -/
structure Program.CallStack (p : Program) (calls : List String) (span : Span) : Prop where
  last : calls.getLast? = some "<main>"
  defined : ∀ name ∈ calls.dropLast, ∃ f ∈ p.functions, f.name = name
  called : ∀ i callee caller, calls[i]? = some callee → calls[i + 1]? = some caller →
    ∃ body, p.bodyOf? caller = some body ∧ callee ∈ body.calls
  place : ∃ innermost body n, calls.head? = some innermost ∧ p.bodyOf? innermost = some body ∧
    n ∈ body.nodes ∧ n.span = span

section

variable {p : Program} {calls : List String} {nodes : List Node}

/-- No name that a source can define is that of the program itself. -/
theorem Program.Parsed.name_ne_main (hp : p.Parsed) {f : FunctionDef} (hf : f ∈ p.functions) :
    f.name ≠ "<main>" := by
  intro hmain
  obtain ⟨-, c, cs, hname, hc, -⟩ := (hp.functions f hf).name
  rw [hmain] at hname
  cases hname
  exact absurd hc (by decide)

namespace Program.Chain

theorem last (h : p.Chain ["<main>"] p.body.nodes calls nodes) :
    calls.getLast? = some "<main>" := by
  induction h with
  | here => rfl
  | call _ _ _ _ ih => rw [List.getLast?_cons, ih, Option.getD_some]

theorem defined (h : p.Chain ["<main>"] p.body.nodes calls nodes) :
    ∀ name ∈ calls.dropLast, ∃ f ∈ p.functions, f.name = name := by
  induction h with
  | here => exact nofun
  | call hchain _ _ hdefinition ih =>
    have hne : _ ≠ [] := List.getLast?_isSome.mp (by rw [hchain.last]; rfl)
    rw [List.dropLast_cons_of_ne_nil hne]
    exact List.forall_mem_cons.mpr ⟨⟨_, mem_of_definition? hdefinition⟩, ih⟩

/-- The nodes at the end of the chain are those of the body that the innermost name tells. -/
theorem innermost (hp : p.Parsed) (h : p.Chain ["<main>"] p.body.nodes calls nodes) :
    ∃ name body, calls.head? = some name ∧ p.bodyOf? name = some body ∧ nodes = body.nodes := by
  cases h with
  | here => exact ⟨"<main>", p.body, rfl, if_pos rfl, rfl⟩
  | @call _ _ _ name _ f _ _ _ hdefinition =>
    obtain ⟨hf, hname⟩ := mem_of_definition? hdefinition
    have hbody : p.bodyOf? name = some f.body := by
      rw [bodyOf?, if_neg (hname ▸ hp.name_ne_main hf), hdefinition, Option.map_some]
    exact ⟨name, f.body, rfl, hbody, rfl⟩

/-- Each name is called in the body that runs under the next one: by induction along the chain. -/
theorem called (hp : p.Parsed) (h : p.Chain ["<main>"] p.body.nodes calls nodes) :
    ∀ i callee caller, calls[i]? = some callee → calls[i + 1]? = some caller →
      ∃ body, p.bodyOf? caller = some body ∧ callee ∈ body.calls := by
  induction h with
  | here =>
    intro i callee caller _ hcaller
    cases hcaller
  | call hchain hcall _ _ ih =>
    intro i callee caller hcallee hcaller
    cases i with
    | succ i => exact ih i callee caller hcallee hcaller
    | zero =>
      cases hcallee
      obtain ⟨name, body, hhead, hbody, rfl⟩ := hchain.innermost hp
      rw [List.getElem?_cons_succ, ← List.head?_eq_getElem?, hhead] at hcaller
      cases hcaller
      exact ⟨body, hbody, Stmt.mem_calls hcall⟩

end Program.Chain

/-- What a run of a parsed program tells of its failure. -/
theorem callStack_of_run {limits : Limits} {fault : Fault} {span : Span} (hp : p.Parsed)
    (h : (p.run limits).halt = some (.failed fault span calls)) : p.CallStack calls span := by
  obtain ⟨nodes, n, hchain, hn, hspan⟩ := chain_of_run h
  obtain ⟨name, body, hhead, hbody, rfl⟩ := hchain.innermost hp
  exact {
    last := hchain.last
    defined := hchain.defined
    called := hchain.called hp
    place := ⟨name, body, n, hhead, hbody, hn, hspan⟩ }

end

/-- **The calls that a failure tells are a chain of calls in the program.**

    1. Whenever a text compiles to a program and a run of it, under any limits, ends in an issue, the
       frames are used up, or the issue tells some calls and a place: the last call is that of the
       program itself, the others are of functions that it defines; each is called by name in the
       body that runs under the next one; and the place is that of a node in the body that runs
       under the first one.
    2. In any program, compiled or not, there is such a chain of calls from the body of the program
       on.
    3. If an argument fails, in any state of a run, the chain begins at the argument, inside the
       calls of the caller. -/
theorem call_stack_of_issue :
    (∀ frames graphs source c p, Compilation.ofSource frames graphs source = .ok c →
      c.program = some p → ∀ limits issue, (p.run limits).halt.bind Halt.issue? = some issue →
      issue = .depth ∨ ∃ message span calls,
        issue = ⟨.runtime calls, message, some span, none⟩ ∧ p.CallStack calls span) ∧
    (∀ (p : Program) limits fault span calls,
      (p.run limits).halt = some (.failed fault span calls) →
      ∃ nodes n, p.Chain ["<main>"] p.body.nodes calls nodes ∧ n ∈ nodes ∧ n.span = span) ∧
    ∀ (p : Program) limits d span name args m e m₁ fault place calls m',
      p.Reaches limits (d + 1) (.call span name args) m →
      (Task.call span name args).Begins limits d m (.expr e) m₁ →
      e.eval limits d m₁ = .error (.failed fault place calls) m' →
      ∃ nodes n, p.Chain m.calls e.nodes calls nodes ∧ n ∈ nodes ∧ n.span = place := by
  refine ⟨?_, fun p limits fault span calls => chain_of_run, ?_⟩
  · intro frames graphs source c p hc hp limits issue hissue
    have hparsed := Compilation.parsed_of_ofSource hc hp
    obtain ⟨halt, hhalt, htold⟩ := Option.bind_eq_some_iff.mp hissue
    cases halt with
    | unfinished => cases htold
    | tooDeep =>
      cases htold
      exact .inl rfl
    | failed fault span calls =>
      cases htold
      exact .inr ⟨_, span, calls, rfl, callStack_of_run hparsed hhalt⟩
  · intro p limits d span name args m e m₁ fault place calls m' hreaches hbegins h
    have hpassed := passed_of_reaches hreaches
    have hknows : p.Knows m := p.knows_of_passed (hpassed List.mem_cons_self)
    exact chain_of_argument hknows hbegins h

/-- A function that calls itself once, and then fails in the argument of another one. -/
def attributing : String :=
  "func g(b)\x7breturn b;\x7dfunc f(a)\x7bif(a)return g(1/0);return f(a+1);\x7df(0);"

theorem attributing_tells_callers :
    ∃ c p span, Compilation.ofSource 500 false attributing = .ok c ∧ c.program = some p ∧
      (p.run ⟨some 20, 0, 50⟩).halt.bind Halt.issue? =
        some ⟨.runtime ["f", "f", "<main>"], "Division by zero", some span, none⟩ ∧
      p.CallStack ["f", "f", "<main>"] span := by
  have hread : ((Compilation.ofSource 500 false attributing).toOption.bind fun c =>
      c.program.bind fun p => ((p.run ⟨some 20, 0, 50⟩).halt.bind Halt.issue?).map fun issue =>
        (issue.category, issue.message)) =
        some (.runtime ["f", "f", "<main>"], "Division by zero") := by decide +kernel
  obtain ⟨c, hsome, hrest⟩ := Option.bind_eq_some_iff.mp hread
  obtain ⟨p, hp, htold⟩ := Option.bind_eq_some_iff.mp hrest
  obtain ⟨issue, hissue, hwords⟩ := Option.map_eq_some_iff.mp htold
  have hc : Compilation.ofSource 500 false attributing = .ok c := Token.eq_ok_of_toOption hsome
  rcases call_stack_of_issue.1 500 false attributing c p hc hp ⟨some 20, 0, 50⟩ issue hissue with
    rfl | ⟨message, span, calls, rfl, hstack⟩
  · exact absurd hwords (by decide)
  · cases hwords
    exact ⟨c, p, span, hc, hp, hissue, hstack⟩

end MiniLang
