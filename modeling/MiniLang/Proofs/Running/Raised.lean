/-
  What a run of a compiled program can fail with.

  1. **Nodes** — `Program.HasNode p n`: a node of the tree of a program, in its body or in that of
     one of its functions.  Every node of a parsed program is parsed itself, so none is stray, and
     the operator of each is one that an evaluation knows.
  2. **Reached nodes** — whatever task a run comes to is the work on a node of its program: what a
     task hands on is a child of its node, or the body of a function, and what is known as a
     function is a definition of the program.
  3. **Raised** — `p.Raises budget message span`: the messages a failure can have, each with the
     kind of node at whose place it is told.
  4. **Runs** — a failure is that of a task the run came to, so it is one of these
     (`issue_of_run`).
-/
import MiniLang.Proofs.Printing.RoundTrip
import MiniLang.Proofs.Running.Overwriting
import MiniLang.Report

namespace MiniLang

/-! ## Nodes -/

/-- A node of a tree that is evaluated or executed. -/
inductive Node
  | expr (e : Expr)
  | stmt (s : Stmt)

namespace Node

/-- A node and one that stands directly below it. -/
inductive Child : Node → Node → Prop
  | left {span l op r} : Child (.expr (.binary span l op r)) (.expr l)
  | right {span l op r} : Child (.expr (.binary span l op r)) (.expr r)
  | argument {span name args e} : e ∈ args → Child (.expr (.call span name args)) (.expr e)
  | member {span body s} : s ∈ body → Child (.stmt (.block span body)) (.stmt s)
  | expr {span e} : Child (.stmt (.expr span e)) (.expr e)
  | value {span name e} : Child (.stmt (.assign span name e)) (.expr e)
  | cond {span c yes no} : Child (.stmt (.ifElse span c yes no)) (.expr c)
  | yes {span c yes no} : Child (.stmt (.ifElse span c yes no)) (.stmt yes)
  | no {span c yes no} : Child (.stmt (.ifElse span c yes (some no))) (.stmt no)
  | test {span c body} : Child (.stmt (.loop span c body)) (.expr c)
  | body {span c body} : Child (.stmt (.loop span c body)) (.stmt body)
  | returned {span e} : Child (.stmt (.ret span (some e))) (.expr e)

/-- The node is one that some source stands for. -/
def Parsed : Node → Prop
  | expr e => e.Parsed
  | stmt s => s.Parsed

theorem parsed_of_child {n n' : Node} (hn : n.Parsed) (h : n.Child n') : n'.Parsed := by
  cases h with
  | left => cases hn with | binary _ _ hl _ => exact hl
  | right => cases hn with | binary _ _ _ hr => exact hr
  | argument he => cases hn with | call _ hargs => exact hargs _ he
  | member hs => cases hn with | block hbody => exact hbody _ hs
  | expr => cases hn with | expr he => exact he
  | value => cases hn with | assign _ he => exact he
  | cond =>
    cases hn with
    | ifThen hc _ => exact hc
    | ifElse hc _ _ _ => exact hc
  | yes =>
    cases hn with
    | ifThen _ hyes => exact hyes
    | ifElse _ hyes _ _ => exact hyes
  | no => cases hn with | ifElse _ _ _ hno => exact hno
  | test => cases hn with | loop hc _ => exact hc
  | body => cases hn with | loop _ hbody => exact hbody
  | returned => cases hn with | ret he => exact he

end Node

/-- A node of the tree of a program. -/
inductive Program.HasNode (p : Program) : Node → Prop
  | body : HasNode p (.stmt p.body)
  | function {f} : f ∈ p.functions → HasNode p (.stmt f.body)
  | child {n n'} : HasNode p n → n.Child n' → HasNode p n'

theorem Program.HasNode.parsed {p : Program} {n : Node} (h : p.HasNode n) (hp : p.Parsed) :
    n.Parsed := by
  induction h with
  | body => exact hp.body.parsed
  | function hf => exact (hp.functions _ hf).body.parsed
  | child _ hchild ih => exact Node.parsed_of_child ih hchild

/-- Whatever compiles to a program is parsed as that program. -/
theorem Compilation.parsed_of_ofSource {frames : Nat} {graphs : Bool} {source : String}
    {c : Compilation} {p : Program} (h : ofSource frames graphs source = .ok c)
    (hp : c.program = some p) : p.Parsed := by
  rw [ofSource] at h
  cases hsource : Token.ofSource source with
  | error e =>
    rw [hsource] at h
    cases e with
    | oversizedNumber n => cases h
    | unknownCharacter ch span =>
      cases h
      cases hp
  | ok tokens =>
    cases hprogram : Program.ofTokens frames tokens with
    | error halt =>
      simp only [hsource, hprogram] at h
      cases h
      cases hp
    | ok q =>
      simp only [hsource, hprogram] at h
      cases h
      cases hp
      exact parsed_of_ofTokens hsource hprogram

/-! ## Reached nodes -/

/-- The node that a task is the work on. -/
def Task.node : Task → Node
  | .expr e => .expr e
  | .stmt s => .stmt s
  | .call span name args => .expr (.call span name args)

section

variable {limits : Limits} {d : Nat} {p : Program}

/-- A statement hands on what stands directly below it. -/
theorem Stmt.Leads.child {s : Stmt} {t : Task} {m m' : Machine} (h : s.Leads limits d m t m') :
    (Node.stmt s).Child t.node := by
  cases h with
  | block before _ => exact .member (List.mem_append_right _ List.mem_cons_self)
  | expr => exact .expr
  | assign => exact .value
  | cond => exact .cond
  | yes _ _ => exact .yes
  | no _ => exact .no
  | test _ _ => exact .test
  | body _ _ _ _ => exact .body
  | ret => exact .returned

theorem Machine.get?_of_callee? {m : Machine} {name : String} {f : FunctionDef}
    (h : m.callee? name = some f) : m.globals.get? name = some (.function f) := by
  unfold callee? at h
  cases hget : m.globals.get? name with
  | none =>
    rw [hget] at h
    cases h
  | some symbol =>
    rw [hget] at h
    cases symbol with
    | «variable» v => cases h
    | function g =>
      cases h
      rfl

/-- What a call can mean in a state that a run passes is the last definition of its name. -/
theorem definition_of_callee? {name : String} {f : FunctionDef} {m : Machine}
    (hm : m ∈ p.passed limits) (h : m.callee? name = some f) : p.definition? name = some f :=
  definition_of_passed hm (Machine.get?_of_callee? h)

/-- The last definition of a name is a definition of the program, and has that name. -/
theorem Program.mem_of_definition? {name : String} {f : FunctionDef}
    (h : p.definition? name = some f) : f ∈ p.functions ∧ f.name = name :=
  ⟨List.mem_reverse.mp (List.mem_of_find?_eq_some h), by simpa using List.find?_some h⟩

theorem Program.HasNode.begins {t t' : Task} {m m' : Machine} (hm : m ∈ p.passed limits)
    (ht : p.HasNode t.node) (h : t.Begins limits d m t' m') : p.HasNode t'.node := by
  cases h with
  | left => exact ht.child .left
  | right _ => exact ht.child .right
  | callee => exact ht
  | inside _ hleads => exact ht.child hleads.child
  | printed => exact ht.child (.argument List.mem_cons_self)
  | argument _ _ _ => exact ht.child (.argument (List.mem_append_right _ List.mem_cons_self))
  | entered _ hcallee _ =>
    have hdefinition := definition_of_callee? hm (Eval.callee?_of_callee hcallee)
    exact .function (mem_of_definition? hdefinition).1

/-- By induction on how often work was handed on. -/
theorem Program.hasNode_of_reaches {t : Task} {m : Machine} (h : p.Reaches limits d t m) :
    p.HasNode t.node := by
  unfold Reaches at h
  induction h with
  | here => exact .body
  | deeper hreaches hbegins ih =>
    have hpassed := passed_of_reaches hreaches
    exact ih.begins (hpassed List.mem_cons_self) hbegins

end

/-! ## Raised -/

/-- What a run of the program can fail with, and the place of the node at which it does. -/
inductive Program.Raises (p : Program) (budget : Option Int) : String → Span → Prop
  | divisionByZero {span l op r} : p.HasNode (.expr (.binary span l op r)) →
      op = .slash ∨ op = .percent → Raises p budget "Division by zero" span
  | undefinedVariable {span name} : p.HasNode (.expr (.var span name)) →
      Raises p budget ("Undefined variable: " ++ name) span
  | unknownFunction {span name args} : p.HasNode (.expr (.call span name args)) →
      name ≠ printName → Raises p budget ("Unknown function: " ++ name) span
  | arityMismatch {span name args f} : p.HasNode (.expr (.call span name args)) →
      name ≠ printName → p.definition? name = some f → f.params.length ≠ args.length →
      Raises p budget ("Arity mismatch for " ++ name ++ ": expected " ++ f.params.length.repr
        ++ " arguments, got " ++ args.length.repr) span
  | printArity {span args} : p.HasNode (.expr (.call span printName args)) → args.length ≠ 1 →
      Raises p budget ("print takes exactly 1 argument, got " ++ args.length.repr) span
  | stepLimit {s} : p.HasNode (.stmt s) → budget.isSome = true →
      Raises p budget "Step limit exceeded (possible infinite loop)." s.span

/-- The cause is one that only trees built by hand have. -/
inductive Fault.Unsupported : Fault → Prop
  | statement (label : String) : Unsupported (.unsupportedStatement label)
  | expression (label : String) : Unsupported (.unsupportedExpression label)
  | operator (op : Token.Kind) : Unsupported (.unsupportedOperator op)

/-- The operators of the levels are those that an evaluation knows. -/
theorem Token.Kind.divisionByZero_of_apply {op : Token.Kind} {level : Parse.Level} {l r : Int}
    {fault : Fault} (hop : level.holds op = true) (h : op.apply l r = .error fault) :
    fault = .divisionByZero ∧ (op = .slash ∨ op = .percent) := by
  rcases fault_of_apply h with hdivision | rfl
  · exact hdivision
  · have hmem : op ∈ level.operators := List.contains_iff_mem.mp hop
    unfold apply at h
    split at h
    case h_4 | h_5 => split at h <;> cases h
    all_goals cases h
    cases level <;> simp_all [Parse.Level.operators]

section

variable {limits : Limits} {d : Nat} {p : Program} {fault : Fault} {span : Span}

/-- A task that is the work on a node of a parsed program, in a state that the run passes, fails with
    what can be raised there. -/
theorem raises_of_fails {t : Task} {m m' : Machine} (hp : p.Parsed) (hm : m ∈ p.passed limits)
    (ht : p.HasNode t.node) (h : t.Fails limits d m fault span m') :
    p.Raises limits.budget fault.message span ∧ ¬ fault.Unsupported := by
  have hparsed := ht.parsed hp
  cases h with
  | read _ => exact ⟨.undefinedVariable ht, nofun⟩
  | operate _ _ happly =>
    cases hparsed with
    | binary level hop _ _ =>
      obtain ⟨rfl, hdivides⟩ := Token.Kind.divisionByZero_of_apply hop happly
      exact ⟨.divisionByZero ht hdivides, nofun⟩
  | strayExpr => cases hparsed
  | stepLimit hbudget _ => exact ⟨.stepLimit ht hbudget, nofun⟩
  | strayStmt _ => cases hparsed
  | print hargs => exact ⟨.printArity ht hargs, nofun⟩
  | callee hname _ => exact ⟨.unknownFunction ht hname, nofun⟩
  | arity hname hcallee hargs =>
    have hdefinition := definition_of_callee? hm hcallee
    obtain ⟨_, hsame⟩ := Program.mem_of_definition? hdefinition
    have hraises : p.Raises limits.budget _ span := .arityMismatch ht hname hdefinition hargs
    rw [← hsame] at hraises
    exact ⟨hraises, nofun⟩

/-! ## Runs -/

/-- A run of a parsed program fails with what can be raised in it. -/
theorem raises_of_run {calls : List String} (hp : p.Parsed)
    (h : (p.run limits).halt = some (.failed fault span calls)) :
    p.Raises limits.budget fault.message span ∧ ¬ fault.Unsupported := by
  obtain ⟨d, t, m, m', hreaches, hfails, -, -⟩ := Program.origin_of_run h
  have hpassed := passed_of_reaches hreaches
  exact raises_of_fails hp (hpassed List.mem_cons_self) (Program.hasNode_of_reaches hreaches) hfails

end

/-- **What a run can fail with.**  Whenever a text compiles to a program and a run of the program,
    under any limits, ends in an issue, the frames are used up, or the message is one of those that
    can be raised in the program, told at the place of a node of the right kind.  The causes that
    only trees built by hand have do not come up. -/
theorem issue_of_run {frames : Nat} {graphs : Bool} {source : String} {c : Compilation}
    {p : Program} (hc : Compilation.ofSource frames graphs source = .ok c)
    (hp : c.program = some p) (limits : Limits) :
    (∀ issue, (p.run limits).halt.bind Halt.issue? = some issue →
      issue = .depth ∨
      ∃ message span calls, p.Raises limits.budget message span ∧
        issue = ⟨.runtime calls, message, some span, none⟩) ∧
    ∀ fault span calls, (p.run limits).halt = some (.failed fault span calls) →
      ¬ fault.Unsupported := by
  have hparsed := Compilation.parsed_of_ofSource hc hp
  refine ⟨?_, fun _ _ _ h => (raises_of_run hparsed h).2⟩
  intro issue hissue
  obtain ⟨halt, hhalt, htold⟩ := Option.bind_eq_some_iff.mp hissue
  cases halt with
  | unfinished => cases htold
  | tooDeep =>
    cases htold
    exact .inl rfl
  | failed fault span calls =>
    cases htold
    exact .inr ⟨_, span, calls, (raises_of_run hparsed hhalt).1, rfl⟩

/-- A function that divides by its argument. -/
def dividing : String := "func f(a)\x7breturn 1/a;\x7df(0);"

theorem dividing_fails :
    ∃ c p span calls, Compilation.ofSource 500 false dividing = .ok c ∧ c.program = some p ∧
      (p.run ⟨some 20, 0, 50⟩).halt.bind Halt.issue? =
        some ⟨.runtime calls, "Division by zero", some span, none⟩ ∧
      p.Raises (some 20) "Division by zero" span := by
  have hread : ((Compilation.ofSource 500 false dividing).toOption.bind fun c =>
      c.program.bind fun p => ((p.run ⟨some 20, 0, 50⟩).halt.bind Halt.issue?).map (·.message)) =
        some "Division by zero" := by decide +kernel
  obtain ⟨c, hsome, hrest⟩ := Option.bind_eq_some_iff.mp hread
  obtain ⟨p, hp, htold⟩ := Option.bind_eq_some_iff.mp hrest
  obtain ⟨issue, hissue, hmessage⟩ := Option.map_eq_some_iff.mp htold
  have hc : Compilation.ofSource 500 false dividing = .ok c := Token.eq_ok_of_toOption hsome
  rcases (issue_of_run hc hp ⟨some 20, 0, 50⟩).1 issue hissue with
    rfl | ⟨message, span, calls, hraises, rfl⟩
  · exact absurd hmessage (by decide)
  · cases hmessage
    exact ⟨c, p, span, calls, hc, hp, hissue, hraises⟩

end MiniLang
