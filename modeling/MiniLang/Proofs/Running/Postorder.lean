/-
  Expressions are evaluated from left to right.

  1. **Visits** — `Expr.visits`: what an expression asks for, in order.  The operands of an operator
     stand before it and the arguments of a print call before its printing, from left to right and
     each once; how many arguments there are is checked before any of them.
  2. **Walks** — `Visit.walk` does one visit after the other, with the values that wait for their
     operator on a stack, and stops at the first one that fails.
  3. **Evaluation** — an expression that calls no function but the one that prints goes the way of
     the walk (`evaluation_walks`).  The visits of a node are those of its parts one behind the
     other, and the walk over lists one behind the other is the walk over the first and then over
     the second (`walk_append`), so the cases are those of the evaluator.
-/
import MiniLang.Proofs.Running.EnoughFrames

namespace MiniLang

/-! ## Visits -/

/-- One thing that an expression asks for. -/
inductive Visit
  | literal (v : Int)
  | lookup (span : Span) (name : String)
  | operator (span : Span) (op : Token.Kind)
  /-- A print call is given so many arguments. -/
  | arguments (span : Span) (n : Nat)
  | print

mutual

/-- What an expression asks for, if it calls nothing but the function that prints. -/
def Expr.visits : Expr → List Visit
  | .lit _ v => [.literal v]
  | .var span name => [.lookup span name]
  | .binary span left op right => left.visits ++ right.visits ++ [.operator span op]
  | .call span _ args => .arguments span args.length :: Expr.visitsOfAll args ++ [.print]
  | .stray _ _ => []

/-- What some expressions ask for, from the first to the last. -/
def Expr.visitsOfAll : List Expr → List Visit
  | [] => []
  | e :: rest => e.visits ++ Expr.visitsOfAll rest

end

/-- Literals, variables, operators and print calls, with any number of arguments. -/
inductive Expr.Plain : Expr → Prop
  | lit (span : Span) (v : Int) : Plain (.lit span v)
  | var (span : Span) (name : String) : Plain (.var span name)
  | binary (span : Span) (op : Token.Kind) {left right : Expr} :
    Plain left → Plain right → Plain (.binary span left op right)
  | call (span : Span) {args : List Expr} :
    (∀ e ∈ args, Plain e) → Plain (.call span printName args)

/-! ## Walks -/

namespace Visit

/-- What a visit makes of the values that wait, the last one first, and what it prints. -/
def does (read : String → Option Int) :
    Visit → List Int → Except (Fault × Span) (List Int × List Int)
  | literal v, waiting => .ok (v :: waiting, [])
  | lookup span name, waiting =>
    match read name with
    | some v => .ok (v :: waiting, [])
    | none => .error (.undefinedVariable name, span)
  | operator span op, r :: l :: waiting =>
    match op.apply l r with
    | .ok v => .ok (v :: waiting, [])
    | .error fault => .error (fault, span)
  | arguments span n, waiting =>
    if n = 1 then .ok (waiting, []) else .error (.printArity n, span)
  | print, v :: waiting => .ok (0 :: waiting, [v])
  | _, waiting => .ok (waiting, [])

/-- The visits one after the other, up to one that fails: how they end, and what they print. -/
def walk (read : String → Option Int) :
    List Visit → List Int → Except (Fault × Span) (List Int) × List Int
  | [], waiting => (.ok waiting, [])
  | visit :: rest, waiting =>
    match visit.does read waiting with
    | .error failure => (.error failure, [])
    | .ok (waiting, printed) => ((walk read rest waiting).1, printed ++ (walk read rest waiting).2)

section

variable {read : String → Option Int} {waiting waiting' printed : List Int}
  {failure : Fault × Span}

theorem walk_singleton_of_ok {visit : Visit}
    (h : visit.does read waiting = .ok (waiting', printed)) :
    walk read [visit] waiting = (.ok waiting', printed) := by
  rw [walk, h]
  dsimp only
  rw [walk, List.append_nil]

theorem walk_cons_of_error {visit : Visit} (rest : List Visit)
    (h : visit.does read waiting = .error failure) :
    walk read (visit :: rest) waiting = (.error failure, []) := by
  rw [walk, h]

/-- After visits that do not fail, the walk goes on. -/
theorem walk_append_of_ok {first : List Visit} (rest : List Visit)
    (h : walk read first waiting = (.ok waiting', printed)) :
    walk read (first ++ rest) waiting =
      ((walk read rest waiting').1, printed ++ (walk read rest waiting').2) := by
  induction first generalizing waiting printed with
  | nil =>
    rw [walk] at h
    cases h
    rfl
  | cons visit first ih =>
    rw [walk] at h
    rw [List.cons_append, walk]
    cases hvisit : visit.does read waiting with
    | error failure =>
      rw [hvisit] at h
      cases h
    | ok done =>
      obtain ⟨between, now⟩ := done
      rw [hvisit] at h
      obtain ⟨hok, rfl⟩ := Prod.mk.inj h
      dsimp only
      rw [ih (Prod.ext hok rfl), List.append_assoc]

/-- After a visit that fails, nothing follows. -/
theorem walk_append_of_error {first : List Visit} (rest : List Visit)
    (h : walk read first waiting = (.error failure, printed)) :
    walk read (first ++ rest) waiting = (.error failure, printed) := by
  induction first generalizing waiting printed with
  | nil =>
    rw [walk] at h
    cases h
  | cons visit first ih =>
    rw [walk] at h
    rw [List.cons_append, walk]
    cases hvisit : visit.does read waiting with
    | error failure =>
      rw [hvisit] at h
      exact h
    | ok done =>
      obtain ⟨between, now⟩ := done
      rw [hvisit] at h
      obtain ⟨herror, rfl⟩ := Prod.mk.inj h
      dsimp only
      rw [ih (Prod.ext herror rfl)]

end

end Visit

/-! ## Evaluation -/

namespace Machine

/-- The state with something more printed, and otherwise as it is. -/
def printing (m : Machine) (out : List Int) : Machine :=
  { m with printed := m.printed ++ out.toArray }

theorem printing_nil (m : Machine) : m.printing [] = m := by
  rw [printing, Array.append_empty]

theorem printing_append (m : Machine) (out more : List Int) :
    (m.printing out).printing more = m.printing (out ++ more) := by
  simp only [printing, Array.append_assoc, List.append_toArray]

/-- What is printed is put out line by line, after what was put out before. -/
theorem output_printing (m : Machine) (out : List Int) :
    (m.printing out).output = m.output ++ String.join (out.map line) := by
  rw [← String.toList_inj, output_toList, String.toList_append, output_toList, printing,
    Array.toList_append, List.flatMap_append, String.toList_join, List.flatMap_map]

/-- What an evaluation comes to that only prints: a value, or a failure inside the live calls. -/
def ending (m : Machine) (out : List Int) :
    Except (Fault × Span) Int → EStateM.Result Halt Machine Int
  | .ok v => .ok v (m.printing out)
  | .error (fault, span) => .error (.failed fault span m.calls) (m.printing out)

end Machine

open Visit (walk)

/-- In every state that reads the names alike, the evaluation comes to what the walk over the visits
    comes to, wherever the walk begins. -/
def Eval.Walks (read : String → Option Int) (visits : List Visit) (x : Eval Int) : Prop :=
  ∃ result out,
    (∀ waiting, walk read visits waiting = (result.map (· :: waiting), out)) ∧
    ∀ m : Machine, m.read? = read → x m = m.ending out result

namespace Eval.Walks

variable {read : String → Option Int}

/-- A single visit that prints nothing. -/
theorem of_visit {visit : Visit} {x : Eval Int} (result : Except (Fault × Span) Int)
    (hvisit : ∀ waiting, visit.does read waiting = result.map fun v => (v :: waiting, []))
    (hx : ∀ m : Machine, m.read? = read → x m = m.ending [] result) : Walks read [visit] x := by
  refine ⟨result, [], fun waiting => ?_, hx⟩
  cases result with
  | error failure => exact Visit.walk_cons_of_error [] (hvisit waiting)
  | ok v => exact Visit.walk_singleton_of_ok (hvisit waiting)

end Eval.Walks

theorem Eval.walks_read (read : String → Option Int) (span : Span) (name : String) :
    Eval.Walks read [.lookup span name] (Eval.read span name) := by
  cases hname : read name with
  | none =>
    refine .of_visit (.error (.undefinedVariable name, span)) (fun _ => ?_) ?_
    · rw [Visit.does, hname]
      rfl
    · rintro m rfl
      rw [Eval.read, hname, Machine.ending, Machine.printing_nil]
      rfl
  | some v =>
    refine .of_visit (.ok v) (fun _ => ?_) ?_
    · rw [Visit.does, hname]
      rfl
    · rintro m rfl
      rw [Eval.read, hname, Machine.ending, Machine.printing_nil]

/-- The operator comes after both operands, and the right operand after the left one. -/
theorem Eval.walks_binary {read : String → Option Int} {first second : List Visit} {x y : Eval Int}
    (hx : Eval.Walks read first x) (hy : Eval.Walks read second y) (span : Span)
    (op : Token.Kind) :
    Eval.Walks read (first ++ second ++ [.operator span op]) (do
      let l ← x
      let r ← y
      Eval.operate span op l r) := by
  obtain ⟨left, outₗ, hfirst, hx⟩ := hx
  obtain ⟨right, outᵣ, hsecond, hy⟩ := hy
  cases left with
  | error failure =>
    refine ⟨.error failure, outₗ, fun waiting => ?_, fun m hm => ?_⟩
    · rw [List.append_assoc]
      exact Visit.walk_append_of_error _ (hfirst waiting)
    · exact Eval.bind_of_error (hx m hm)
  | ok l =>
    cases right with
    | error failure =>
      refine ⟨.error failure, outₗ ++ outᵣ, fun waiting => ?_, fun m hm => ?_⟩
      · rw [List.append_assoc, Visit.walk_append_of_ok _ (hfirst waiting),
          Visit.walk_append_of_error _ (hsecond (l :: waiting))]
        rfl
      · rw [Eval.bind_of_ok (hx m hm), Eval.bind_of_error (hy (m.printing outₗ) hm), Machine.ending,
          Machine.printing_append]
        rfl
    | ok r =>
      -- both operands are known, and the operator is at work
      have hboth : ∀ waiting, walk read (first ++ second) waiting =
          (.ok (r :: l :: waiting), outₗ ++ outᵣ) := by
        intro waiting
        rw [Visit.walk_append_of_ok _ (hfirst waiting), hsecond (l :: waiting)]
        rfl
      have hrun : ∀ m : Machine, m.read? = read →
          (do let l ← x; let r ← y; Eval.operate span op l r : Eval Int) m =
            Eval.operate span op l r (m.printing (outₗ ++ outᵣ)) := by
        intro m hm
        rw [Eval.bind_of_ok (hx m hm), Eval.bind_of_ok (hy (m.printing outₗ) hm),
          Machine.printing_append]
      cases happly : op.apply l r with
      | error fault =>
        refine ⟨.error (fault, span), outₗ ++ outᵣ, fun waiting => ?_, fun m hm => ?_⟩
        · have hlast : (Visit.operator span op).does read (r :: l :: waiting) =
              .error (fault, span) := by
            rw [Visit.does, happly]
          rw [Visit.walk_append_of_ok _ (hboth waiting), Visit.walk_cons_of_error _ hlast,
            List.append_nil]
          rfl
        · rw [hrun m hm, Eval.operate, happly]
          rfl
      | ok v =>
        refine ⟨.ok v, outₗ ++ outᵣ, fun waiting => ?_, fun m hm => ?_⟩
        · have hlast : (Visit.operator span op).does read (r :: l :: waiting) =
              .ok (v :: waiting, []) := by
            rw [Visit.does, happly]
          rw [Visit.walk_append_of_ok _ (hboth waiting), Visit.walk_singleton_of_ok hlast,
            List.append_nil]
          rfl
        · rw [hrun m hm, Eval.operate, happly]
          rfl

/-- A value is printed when it is known. -/
theorem Eval.walks_print {read : String → Option Int} {visits : List Visit} {x : Eval Int}
    (hx : Eval.Walks read visits x) (span : Span) :
    Eval.Walks read (.arguments span 1 :: visits ++ [.print]) (do
      let v ← x
      Eval.emit v
      return 0) := by
  obtain ⟨result, out, hvisits, hx⟩ := hx
  have hone : ∀ waiting, walk read [.arguments span 1] waiting = (.ok waiting, []) :=
    fun waiting => Visit.walk_singleton_of_ok rfl
  have hfirst : ∀ waiting, walk read (.arguments span 1 :: visits) waiting =
      (result.map (· :: waiting), out) := by
    intro waiting
    rw [← List.singleton_append, Visit.walk_append_of_ok _ (hone waiting), hvisits waiting,
      List.nil_append]
  cases result with
  | error failure =>
    exact ⟨.error failure, out, fun waiting => Visit.walk_append_of_error _ (hfirst waiting),
      fun m hm => Eval.bind_of_error (hx m hm)⟩
  | ok v =>
    refine ⟨.ok 0, out ++ [v], fun waiting => ?_, fun m hm => ?_⟩
    · have hlast : walk read [.print] (v :: waiting) = (.ok (0 :: waiting), [v]) :=
        Visit.walk_singleton_of_ok rfl
      rw [Visit.walk_append_of_ok _ (hfirst waiting), hlast]
      rfl
    · have hemit : Eval.emit v (m.printing out) = .ok () (m.printing (out ++ [v])) := by
        rw [← Machine.printing_append]
        rfl
      rw [Eval.bind_of_ok (hx m hm), Eval.bind_of_ok hemit]
      rfl

/-- The number of arguments is checked before anything else. -/
theorem Eval.walks_arguments {read : String → Option Int} {n : Nat} (h : n ≠ 1) (span : Span)
    (rest : List Visit) :
    Eval.Walks read (.arguments span n :: rest) (Eval.fail (.printArity n) span) := by
  have hcheck : ∀ waiting, (Visit.arguments span n).does read waiting =
      .error (.printArity n, span) := by
    intro waiting
    rw [Visit.does, if_neg h]
  refine ⟨.error (.printArity n, span), [],
    fun waiting => Visit.walk_cons_of_error rest (hcheck waiting), fun m _ => ?_⟩
  rw [Machine.ending, Machine.printing_nil]
  rfl

theorem callFunction_of_printArity {limits : Limits} {d : Nat} {span : Span} {args : List Expr}
    (h : args.length ≠ 1) :
    callFunction limits (d + 1) span printName args =
      Eval.fail (.printArity args.length) span := by
  have hmany : ∀ e, args = [e] → False := by
    rintro e rfl
    exact h rfl
  rw [callFunction, if_pos rfl]
  exact hmany

/-- An expression that calls nothing but the function that prints goes the way of the walk. -/
theorem evaluation_walks (limits : Limits) (read : String → Option Int) {e : Expr}
    (he : e.Plain) : ∀ d, e.depth ≤ d → Eval.Walks read e.visits (e.eval limits d) := by
  induction he with
  | lit span v =>
    intro d hd
    obtain ⟨d, rfl⟩ := Nat.exists_eq_add_of_le' (show 1 ≤ d from hd)
    rw [Expr.visits, Expr.eval]
    refine .of_visit (.ok v) (fun _ => rfl) fun m _ => ?_
    rw [Machine.ending, Machine.printing_nil]
    rfl
  | var span name =>
    intro d hd
    obtain ⟨d, rfl⟩ := Nat.exists_eq_add_of_le' (show 1 ≤ d from hd)
    rw [Expr.visits, Expr.eval]
    exact Eval.walks_read read span name
  | binary span op _ _ ihₗ ihᵣ =>
    intro d hd
    rw [Expr.depth] at hd
    obtain ⟨d, rfl⟩ : ∃ k, d = k + 1 := ⟨d - 1, by omega⟩
    rw [Expr.visits, Expr.eval]
    exact Eval.walks_binary (ihₗ d (by omega)) (ihᵣ d (by omega)) span op
  | @call span args _ ih =>
    intro d hd
    rw [Expr.depth] at hd
    obtain ⟨d, rfl⟩ : ∃ k, d = k + 2 := ⟨d - 2, by omega⟩
    rw [Expr.visits, Expr.eval]
    by_cases hone : args.length = 1
    · obtain ⟨e, rfl⟩ := List.length_eq_one_iff.mp hone
      rw [Expr.depths] at hd
      rw [Expr.visitsOfAll, Expr.visitsOfAll, List.append_nil, callFunction, if_pos rfl]
      exact Eval.walks_print (ih e (List.mem_singleton_self e) d (by omega)) span
    · -- the number is wrong, and the arguments do not matter
      rw [callFunction_of_printArity hone]
      exact Eval.walks_arguments hone span _

/-- **Evaluation is strict, and goes from left to right.**  An expression of literals, variables,
    operators and print calls ends as the walk over its visits does, in a value or at the first visit
    that fails, and it changes nothing but that it prints what the walk prints.  Too few frames can
    only keep it from ending.  A call of any other function fails before its arguments are
    evaluated, and changes nothing, if there is no such function or if it takes another number. -/
theorem evaluation_is_postorder (limits : Limits) (m : Machine) :
    (∀ e : Expr, e.Plain → ∃ result out,
      walk m.read? e.visits [] = (result.map fun v => [v], out) ∧
      (m.printing out).output = m.output ++ String.join (out.map Machine.line) ∧
      (∀ d, e.depth ≤ d → e.eval limits d m = m.ending out result) ∧
      ∀ d, e.eval limits d m = m.ending out result ∨
        ∃ m', e.eval limits d m = .error .tooDeep m') ∧
    ∀ (span : Span) (name : String) (args : List Expr) (d : Nat), name ≠ printName →
      (m.callee? name = none → (Expr.call span name args).eval limits (d + 2) m =
        .error (.failed (.unknownFunction name) span m.calls) m) ∧
      ∀ f, m.callee? name = some f → f.params.length ≠ args.length →
        (Expr.call span name args).eval limits (d + 2) m =
          .error (.failed (.arityMismatch f.name f.params.length args.length) span m.calls) m := by
  constructor
  · intro e he
    obtain ⟨result, out, hwalk, heval⟩ := evaluation_walks limits m.read? he e.depth (Nat.le_refl _)
    have hextends : ∀ {d d'}, d ≤ d' → Extends (e.eval limits d) (e.eval limits d') :=
      fun hle => (evaluator_extends ⟨rfl, rfl⟩ hle).eval e
    have hmore : ∀ d, e.depth ≤ d → e.eval limits d m = m.ending out result := by
      intro d hd
      rcases (hextends hd).agrees m with hsame | ⟨m', hdeep, -⟩
      · rw [← hsame, heval m rfl]
      · -- with as many frames as the expression is deep, they are enough
        rw [heval m rfl] at hdeep
        cases result <;> cases hdeep
    refine ⟨result, out, hwalk [], m.output_printing out, hmore, fun d => ?_⟩
    rcases (hextends (Nat.le_max_left d e.depth)).agrees m with hsame | ⟨m', hdeep, -⟩
    · exact .inl (hsame.trans (hmore _ (Nat.le_max_right _ _)))
    · exact .inr ⟨m', hdeep⟩
  · intro span name args d hname
    rw [Expr.eval]
    unfold callFunction
    rw [if_neg hname]
    constructor
    · intro hnone
      refine Eval.bind_of_error ?_
      rw [Eval.callee, hnone]
      rfl
    · intro f hf hargs
      refine Eval.bind_of_error ?_
      rw [Eval.callee, hf]
      exact if_neg hargs

/-- The prints of `print(7) - x` and of `print(x) / print(8)`, the one result over the other. -/
def chatty : Expr :=
  let s : Span := .empty .origin
  let print (e : Expr) : Expr := .call s printName [e]
  .binary s (.binary s (print (.lit s 7)) .minus (.var s "x")) .slash
    (.binary s (print (.var s "x")) .slash (print (.lit s 8)))

/-- The state in which `x` is 5 and `f` takes one argument. -/
def withFive : Machine :=
  let s : Span := .empty .origin
  (Machine.empty.define [⟨s, "f", ["a"], .block s []⟩]).assign "x" 5

theorem chatty_plain : chatty.Plain := by
  refine .binary _ _ (.binary _ _ (.call _ ?_) (.var _ _)) (.binary _ _ (.call _ ?_) (.call _ ?_))
  · exact List.forall_mem_singleton.mpr (.lit _ _)
  · exact List.forall_mem_singleton.mpr (.var _ _)
  · exact List.forall_mem_singleton.mpr (.lit _ _)

theorem chatty_postorder (limits : Limits) :
    -- it prints 7, 5 and 8 before the inner division fails
    chatty.eval limits 9 withFive =
      .error (.failed .divisionByZero (.empty .origin) []) (withFive.printing [7, 5, 8]) ∧
    (Expr.call (.empty .origin) "f" [chatty, chatty]).eval limits 9 withFive =
      .error (.failed (.arityMismatch "f" 1 2) (.empty .origin) []) withFive ∧
    (Expr.call (.empty .origin) "x" [chatty]).eval limits 9 withFive =
      .error (.failed (.unknownFunction "x") (.empty .origin) []) withFive := by
  obtain ⟨hwalks, hcalls⟩ := evaluation_is_postorder limits withFive
  obtain ⟨result, out, hwalk, -, heval, -⟩ := hwalks chatty chatty_plain
  refine ⟨?_, ?_, ?_⟩
  · rw [heval 9 (by decide)]
    have hvisits : walk withFive.read? chatty.visits [] =
        (.error (.divisionByZero, .empty .origin), [7, 5, 8]) := rfl
    rw [hvisits] at hwalk
    obtain ⟨hresult, rfl⟩ := Prod.mk.inj hwalk
    cases result <;> cases hresult
    rfl
  · exact (hcalls _ "f" _ 7 (by decide)).2 _ rfl (by decide)
  · exact (hcalls _ "x" _ 7 (by decide)).1 rfl

end MiniLang
