/-
  Where the work of a run stands: at which node, and inside which live calls.

  A task hands on work on its own node or on one directly below it, and inside the calls that were
  live when it began; only a call hands on the body of a function, in a record of its own on top of
  them.

  1. **Nodes inside** — `s.nodes` lists a statement and whatever is executed or evaluated inside it.
     The names that are assigned there are its `targets`, the names that are called its `calls`.
  2. **Handing on** — `Task.Hands R`: what is handed on, with a relation `R` between the states of a
     run that lasts.
  3. **Live calls** — the calls that are live when a task begins are live in whatever it comes to
     and in whatever is changed on the way (`outline_of_reaches`, `Task.Changes.outline`).
  4. **One name** — `m.bindings x`: what each live call binds a name to.  `m.Undisturbed x m'`: what an
     earlier state has of the name, globally and in its live calls, is as it was.  Only assigning the
     name can break this while those calls last (`Task.Does.undisturbed`).
-/
import MiniLang.Proofs.Running.Calls
import MiniLang.Proofs.Running.Raised

namespace MiniLang

/-! ## Nodes inside -/

/-- An expression and the expressions inside it. -/
def Expr.nodes : Expr → List Node
  | .lit s v => [.expr (.lit s v)]
  | .var s name => [.expr (.var s name)]
  | .binary s left op right => .expr (.binary s left op right) :: (left.nodes ++ right.nodes)
  | .call s name args => .expr (.call s name args) :: args.flatMap Expr.nodes
  | .stray s label => [.expr (.stray s label)]

/-- A statement, and the statements and expressions inside it. -/
def Stmt.nodes : Stmt → List Node
  | .block s body => .stmt (.block s body) :: body.flatMap Stmt.nodes
  | .expr s e => .stmt (.expr s e) :: e.nodes
  | .assign s name e => .stmt (.assign s name e) :: e.nodes
  | .ifElse s c yes none => .stmt (.ifElse s c yes none) :: (c.nodes ++ yes.nodes)
  | .ifElse s c yes (some no) =>
    .stmt (.ifElse s c yes (some no)) :: (c.nodes ++ yes.nodes ++ no.nodes)
  | .loop s c body => .stmt (.loop s c body) :: (c.nodes ++ body.nodes)
  | .ret s none => [.stmt (.ret s none)]
  | .ret s (some e) => .stmt (.ret s (some e)) :: e.nodes
  | .stray s label => [.stmt (.stray s label)]

namespace Node

/-- A node and the nodes inside it. -/
def nodes : Node → List Node
  | .expr e => e.nodes
  | .stmt s => s.nodes

/-- Where a node stands. -/
def span : Node → Span
  | .expr e => e.span
  | .stmt s => s.span

/-- The name that a node assigns. -/
def target? : Node → Option String
  | .stmt (.assign _ name _) => some name
  | _ => none

/-- The name that a node calls. -/
def called? : Node → Option String
  | .expr (.call _ name _) => some name
  | _ => none

end Node

/-- The names that are assigned inside a statement. -/
def Stmt.targets (s : Stmt) : List String := s.nodes.filterMap Node.target?

/-- The names that are called inside a statement. -/
def Stmt.calls (s : Stmt) : List String := s.nodes.filterMap Node.called?

theorem Stmt.nodes_ifElse (s : Span) (c : Expr) (yes : Stmt) (no : Option Stmt) :
    (Stmt.ifElse s c yes no).nodes =
      .stmt (.ifElse s c yes no) :: (c.nodes ++ (yes.nodes ++ no.toList.flatMap Stmt.nodes)) := by
  cases no with
  | none => rw [nodes, Option.toList_none, List.flatMap_nil, List.append_nil]
  | some no => rw [nodes, Option.toList_some, List.flatMap_singleton, List.append_assoc]

namespace Node

variable {n n' : Node}

theorem self_mem_nodes (n : Node) : n ∈ n.nodes := by
  rcases n with e | s
  · cases e <;> rw [nodes, Expr.nodes] <;> exact List.mem_cons_self
  · rcases s with _ | _ | _ | _ | _ | ⟨_, _ | _⟩ | _
    case ifElse =>
      rw [nodes, Stmt.nodes_ifElse]
      exact List.mem_cons_self
    all_goals
      rw [nodes, Stmt.nodes]
      exact List.mem_cons_self

/-- What is inside a node that stands directly below another one is inside that. -/
theorem Child.nodes_subset (h : n.Child n') : n'.nodes ⊆ n.nodes := by
  intro inner hinner
  cases h with
  | left =>
    rw [nodes, Expr.nodes]
    exact .tail _ (List.mem_append_left _ hinner)
  | right =>
    rw [nodes, Expr.nodes]
    exact .tail _ (List.mem_append_right _ hinner)
  | argument he =>
    rw [nodes, Expr.nodes]
    exact .tail _ (List.mem_flatMap.mpr ⟨_, he, hinner⟩)
  | member hs =>
    rw [nodes, Stmt.nodes]
    exact .tail _ (List.mem_flatMap.mpr ⟨_, hs, hinner⟩)
  | cond =>
    rw [nodes, Stmt.nodes_ifElse]
    exact .tail _ (List.mem_append_left _ hinner)
  | yes =>
    rw [nodes, Stmt.nodes_ifElse]
    exact .tail _ (List.mem_append_right _ (List.mem_append_left _ hinner))
  | @no _ _ _ no =>
    have hno : inner ∈ (some no).toList.flatMap Stmt.nodes :=
      List.mem_flatMap.mpr ⟨no, List.mem_singleton_self no, hinner⟩
    rw [nodes, Stmt.nodes_ifElse]
    exact .tail _ (List.mem_append_right _ (List.mem_append_right _ hno))
  | test =>
    rw [nodes, Stmt.nodes]
    exact .tail _ (List.mem_append_left _ hinner)
  | body =>
    rw [nodes, Stmt.nodes]
    exact .tail _ (List.mem_append_right _ hinner)
  | expr | value | returned =>
    rw [nodes, Stmt.nodes]
    exact .tail _ hinner

end Node

/-! ## Handing on -/

/-- A task hands on work on its own node or on one directly below it, in a state to which `R` relates
    its own; or it is a call that hands on the body of the function, in a record of its own on top of
    such a state. -/
inductive Task.Hands (R : Machine → Machine → Prop) : Task → Machine → Task → Machine → Prop
  | below {t t' m m'} : t'.node = t.node ∨ t.node.Child t'.node → R m m' → Hands R t m t' m'
  | body {span name args f locals m m'} : name ≠ printName → m.callee? name = some f → R m m' →
      Hands R (.call span name args) m (.stmt f.body)
        { m' with stack := ⟨f.name, locals⟩ :: m'.stack }

section

variable {R : Machine → Machine → Prop} {limits : Limits} {d : Nat}

theorem Eval.Keeps.of_ok {α : Type} {x : Eval α} {a : α} {m m' : Machine} (hx : Keeps R x)
    (h : x m = .ok a m') : R m m' := by
  have hkept := hx m
  rwa [after_of_ok h] at hkept

theorem Eval.Keeps.sequence {exec : Stmt → Eval Completion} (hR : Machine.Lasting R)
    (h : ∀ s, Keeps R (exec s)) (body : List Stmt) : Keeps R (Eval.sequence exec body) := by
  have hsteps := (congruence hR { budget := none, patience := 0, frames := 0 }).parametric
  exact @Parametric.sequence _ _ _ hsteps exec exec h body

/-- Full rounds keep what lasts. -/
theorem Eval.Rounds.kept {cond : Eval Int} {body : Eval Completion} {n : Nat} {m m' : Machine}
    (hR : Machine.Lasting R) (hcond : Keeps R cond) (hbody : Keeps R body)
    (h : Rounds cond body n m m') : R m m' := by
  induction h with
  | none => exact hR.refl _
  | more _ hc _ hround ih => exact hR.trans ih (hR.trans (hcond.of_ok hc) (hbody.of_ok hround))

theorem Stmt.Leads.kept {s : Stmt} {t : Task} {m m' : Machine} (hR : Machine.Lasting R)
    (h : s.Leads limits d m t m') : R m m' := by
  have hkeeps := evaluator_keeps hR limits d
  have hrounds : ∀ c body n m', Eval.Rounds (Expr.eval limits d c) (Stmt.exec limits d body) n m m' →
      R m m' := fun c body _ _ h => h.kept hR (hkeeps.eval c) (hkeeps.exec body)
  cases h with
  | block before hbefore => exact (Eval.Keeps.sequence hR hkeeps.exec before).of_ok hbefore
  | expr => exact hR.refl m
  | assign => exact hR.refl m
  | cond => exact hR.refl m
  | yes hc _ => exact (hkeeps.eval _).of_ok hc
  | no hc => exact (hkeeps.eval _).of_ok hc
  | test hbefore _ => exact hrounds _ _ _ _ hbefore
  | body hbefore _ hc _ => exact hR.trans (hrounds _ _ _ _ hbefore) ((hkeeps.eval _).of_ok hc)
  | ret => exact hR.refl m

/-- The states between which a task hands on work are related by whatever lasts. -/
theorem Task.Begins.hands {t t' : Task} {m m' : Machine} (hR : Machine.Lasting R)
    (h : t.Begins limits d m t' m') : t.Hands R m t' m' := by
  have hkeeps := evaluator_keeps hR limits d
  -- finding the function changes nothing, and the arguments are evaluated behind that
  have harguments : ∀ span name n args f vs m₁ m₂, Eval.callee span name n m = .ok f m₁ →
      Eval.each (Expr.eval limits d) args m₁ = .ok vs m₂ → R m m₂ := by
    intro span name n args f vs m₁ m₂ hcallee hargs
    have hfound := (Eval.Keeps.of_still hR (Eval.still_callee span name n)).of_ok hcallee
    exact hR.trans hfound ((Eval.Keeps.each hR hkeeps.eval args).of_ok hargs)
  cases h with
  | left => exact .below (.inr .left) (hR.refl m)
  | right hl => exact .below (.inr .right) ((hkeeps.eval _).of_ok hl)
  | callee => exact .below (.inl rfl) (hR.refl m)
  | inside htick hleads =>
    have hstep := (Eval.Keeps.tick hR limits _).of_ok htick
    exact .below (.inr hleads.child) (hR.trans hstep (hleads.kept hR))
  | printed => exact .below (.inr (.argument List.mem_cons_self)) (hR.refl m)
  | argument _ hcallee hbefore =>
    refine .below (.inr (.argument (List.mem_append_right _ List.mem_cons_self))) ?_
    exact harguments _ _ _ _ _ _ _ _ hcallee hbefore
  | entered hname hcallee hargs =>
    exact .body hname (Eval.callee?_of_callee hcallee) (harguments _ _ _ _ _ _ _ _ hcallee hargs)

end

/-- Where a call hands on a statement, it is the body of the function. -/
theorem Task.Hands.entered {R : Machine → Machine → Prop} {span : Span} {name : String}
    {args : List Expr} {s : Stmt} {m m' : Machine}
    (h : (Task.call span name args).Hands R m (.stmt s) m') :
    ∃ f locals m₁, m.callee? name = some f ∧ s = f.body ∧ R m m₁ ∧
      m' = { m₁ with stack := ⟨f.name, locals⟩ :: m₁.stack } := by
  cases h with
  | body _ hf hR => exact ⟨_, _, _, hf, rfl, hR, rfl⟩
  | below hnode _ =>
    rcases hnode with hnode | hnode
    · cases hnode
    · cases hnode

/-! ## Live calls -/

theorem Machine.outline_push (m : Machine) (record : Record) :
    { m with stack := record :: m.stack }.outline = record.outline :: m.outline := rfl

section

variable {limits : Limits} {d d₀ : Nat} {t t₀ : Task} {m m₀ m₁ m' : Machine}

/-- The calls that are live where a task begins are live in whatever it comes to. -/
theorem outline_of_reaches (h : t₀.Reaches limits d₀ m₀ d t m) : m₀.outline <:+ m.outline := by
  induction h with
  | here => exact List.suffix_refl _
  | deeper _ hbegins ih =>
    cases hbegins.hands Machine.lasting_outline with
    | below _ hsame =>
      rw [hsame]
      exact ih
    | body _ _ hsame =>
      rw [Machine.outline_push, hsame]
      exact ih.trans (List.suffix_cons _ _)

/-- What a task does itself, it does while the calls are live that were so when it began. -/
theorem Task.Does.outline (h : t.Does limits d m₁ m m') :
    m₁.outline <:+ m.outline ∧ m₁.outline <:+ m'.outline := by
  have hkeeps := evaluator_keeps Machine.lasting_outline limits d
  cases h with
  | count => exact ⟨List.suffix_refl _, List.suffix_refl _⟩
  | assign htick he =>
    have hstep := (Eval.Keeps.tick Machine.lasting_outline limits _).of_ok htick
    have hsame : m.outline = m₁.outline := ((hkeeps.eval _).of_ok he).trans hstep
    rw [Machine.outline_assign, hsame]
    exact ⟨List.suffix_refl _, List.suffix_refl _⟩
  | print he =>
    have hsame : m.outline = m₁.outline := (hkeeps.eval _).of_ok he
    rw [← hsame]
    exact ⟨List.suffix_refl _, List.suffix_refl _⟩
  | enter hbegins =>
    obtain ⟨f, locals, m₂, -, -, hsame, rfl⟩ := (hbegins.hands Machine.lasting_outline).entered
    rw [Machine.outline_push, ← hsame]
    exact ⟨List.suffix_refl _, List.suffix_cons _ _⟩
  | @leave _ _ _ body _ m₂ hbegins =>
    obtain ⟨f, locals, m₂, -, -, hsame, rfl⟩ := (hbegins.hands Machine.lasting_outline).entered
    have hbody := hkeeps.exec body { m₂ with stack := ⟨f.name, locals⟩ :: m₂.stack }
    have hleft := Machine.lasting_outline.call hbody
    rw [hbody, hleft, Machine.outline_push, hsame]
    exact ⟨List.suffix_cons _ _, List.suffix_refl _⟩

theorem Task.Changes.outline (h : t.Changes limits d m₀ m m') :
    m₀.outline <:+ m.outline ∧ m₀.outline <:+ m'.outline := by
  obtain ⟨d', t', m₁, hreaches, hdoes⟩ := h
  have hlive := outline_of_reaches hreaches
  exact ⟨hlive.trans hdoes.outline.1, hlive.trans hdoes.outline.2⟩

end

/-! ## One name -/

namespace Machine

/-- What each live call binds a name to, the innermost first. -/
def bindings (m : Machine) (x : String) : List (Option Int) :=
  m.stack.map fun record => record.locals.get? x

theorem length_bindings (m : Machine) (x : String) : (m.bindings x).length = m.outline.length := by
  rw [bindings, outline, List.length_map, List.length_map]

/-- Rebinding a name leaves what the records bind the others to. -/
theorem bindings_rebindIn_of_ne {name x : String} {v : Int} (hne : x ≠ name) :
    ∀ {records rebound : List Record}, rebindIn records name v = some rebound →
      rebound.map (fun record => record.locals.get? x) =
        records.map fun record => record.locals.get? x := by
  intro records
  induction records with
  | nil => exact nofun
  | cons record rest ih =>
    intro rebound h
    rw [rebindIn] at h
    by_cases hbound : record.locals.has name = true
    · rw [if_pos hbound] at h
      cases h
      rw [List.map_cons, List.map_cons, Table.get?_set_of_ne _ _ hne]
    · rw [if_neg hbound] at h
      obtain ⟨rest', hrest, rfl⟩ := Option.map_eq_some_iff.mp h
      rw [List.map_cons, List.map_cons, ih hrest]

/-- A name that some of the inner records bind is rebound in one of these. -/
theorem rebindIn_append {name : String} {v : Int} (outer : List Record) :
    ∀ {inner : List Record}, (∃ record ∈ inner, record.locals.has name = true) →
      ∃ inner', rebindIn (inner ++ outer) name v = some (inner' ++ outer) := by
  intro inner
  induction inner with
  | nil =>
    rintro ⟨record, hrecord, -⟩
    cases hrecord
  | cons record rest ih =>
    rintro ⟨binding, hbinding, hbinds⟩
    rw [List.cons_append, rebindIn]
    by_cases hbound : record.locals.has name = true
    · rw [if_pos hbound]
      exact ⟨{ record with locals := record.locals.set name v } :: rest, rfl⟩
    · rw [if_neg hbound]
      rcases List.mem_cons.mp hbinding with rfl | hrest
      · exact absurd hbinds hbound
      · obtain ⟨inner', hinner'⟩ := ih ⟨binding, hrest, hbinds⟩
        rw [hinner']
        exact ⟨record :: inner', rfl⟩

/-- Of a name, the later state has the global entry that the earlier one has, if any, and whatever
    the calls bind it to that are live in the earlier one. -/
structure Undisturbed (x : String) (m m' : Machine) : Prop where
  entry : m'.globals.get? x = m.globals.get? x
  bindings : m.bindings x <:+ m'.bindings x

namespace Undisturbed

variable {x name : String} {m₀ m : Machine}

theorem refl (x : String) (m : Machine) : m.Undisturbed x m := ⟨rfl, List.suffix_refl _⟩

/-- Another name is assigned. -/
theorem assign_of_ne (hne : x ≠ name) (v : Int) (h : m₀.Undisturbed x m) :
    m₀.Undisturbed x (m.assign name v) := by
  unfold Machine.assign
  cases hrebind : rebindIn m.stack name v with
  | some stack =>
    have hsame := bindings_rebindIn_of_ne hne hrebind
    refine ⟨h.entry, ?_⟩
    show _ <:+ stack.map _
    rw [hsame]
    exact h.bindings
  | none =>
    refine ⟨?_, h.bindings⟩
    show (m.globals.set name _).get? x = _
    rw [Table.get?_set_of_ne _ _ hne]
    exact h.entry

/-- The name is assigned while a record that binds it is on top of the earlier state. -/
theorem assign_of_bound {function : String} {names : List String}
    (hlive : (function, names) :: m₀.outline <:+ m.outline) (hx : x ∈ names) (v : Int)
    (h : m₀.Undisturbed x m) : m₀.Undisturbed x (m.assign x v) := by
  obtain ⟨above, habove⟩ := hlive
  obtain ⟨top, rest, hstack, -, hrest⟩ := List.map_eq_append_iff.mp habove.symm
  obtain ⟨record, below, rfl, hrecord, hbelow⟩ := List.map_eq_cons_iff.mp hrest
  have hbound : record.locals.has x = true := by
    have hnames : record.locals.names = names := congrArg Prod.snd hrecord
    rw [Table.has_iff_mem, hnames]
    exact hx
  have hmem : record ∈ top ++ [record] := List.mem_append_right _ List.mem_cons_self
  obtain ⟨top', hrebind⟩ := rebindIn_append (v := v) below ⟨record, hmem, hbound⟩
  have hassign : m.assign x v = { m with stack := top' ++ below } := by
    unfold Machine.assign
    rw [hstack, List.append_cons, hrebind]
  -- the records below that one are those of the earlier state
  have hlength : (m₀.bindings x).length = below.length := by
    rw [length_bindings, ← hbelow, List.length_map]
  have hbelow : below.map (fun record => record.locals.get? x) <:+ m.bindings x := by
    rw [Machine.bindings, hstack]
    exact ((List.suffix_cons record below).trans (List.suffix_append top _)).map _
  have hle : (m₀.bindings x).length ≤ (below.map fun record => record.locals.get? x).length := by
    rw [List.length_map]
    omega
  have hsuffix := List.suffix_of_suffix_length_le h.bindings hbelow hle
  rw [hassign]
  refine ⟨h.entry, hsuffix.trans ?_⟩
  exact (List.suffix_append top' below).map _

end Undisturbed

end Machine

/-- A change that does not assign the name does not disturb what an earlier state has of it, as long
    as the calls are live that were so then. -/
theorem Task.Does.undisturbed {limits : Limits} {d : Nat} {t : Task} {x : String}
    {m₀ m₁ m m' : Machine} (h : t.Does limits d m₁ m m') (hlive : m₀.outline <:+ m'.outline)
    (hm : m₀.Undisturbed x m)
    (hassign : ∀ span e v, t = .stmt (.assign span x e) → m₀.Undisturbed x (m.assign x v)) :
    m₀.Undisturbed x m' := by
  cases h with
  | count => exact ⟨hm.entry, hm.bindings⟩
  | print _ => exact ⟨hm.entry, hm.bindings⟩
  | @assign span name e _ _ _ v _ _ =>
    by_cases hname : x = name
    · subst hname
      exact hassign span e v rfl
    · exact hm.assign_of_ne hname v
  | enter hbegins =>
    obtain ⟨f, locals, m₂, -, -, -, rfl⟩ := (hbegins.hands Machine.lasting_outline).entered
    exact ⟨hm.entry, hm.bindings.trans (List.suffix_cons _ _)⟩
  | leave hbegins =>
    refine ⟨hm.entry, ?_⟩
    have htail : ∀ m₂ : Machine, Machine.bindings { m₂ with stack := m₂.stack.tail } x <:+
        m₂.bindings x := fun m₂ => (List.tail_suffix m₂.stack).map _
    refine List.suffix_of_suffix_length_le hm.bindings (htail _) ?_
    rw [Machine.length_bindings, Machine.length_bindings]
    exact hlive.length_le

/-- By induction on the path: what holds at first and is kept by every change holds of every state
    that is passed. -/
theorem Path.invariant {R : Machine → Machine → Prop} {I : Machine → Prop} {m m' : Machine}
    {ms : List Machine} (h : Path R m ms m') (hfirst : I m) (hstep : ∀ a b, R a b → I a → I b) :
    ∀ a ∈ m :: ms, I a := by
  induction h with
  | nil => exact List.forall_mem_singleton.mpr hfirst
  | cons hR _ ih => exact List.forall_mem_cons.mpr ⟨hfirst, ih (hstep _ _ hR hfirst)⟩

end MiniLang
