/-
  Parameters shield the caller.

  Names resolve in the live calls, the innermost first, so a function can write what its callers
  bind.  Not so under the names of its own parameters: as long as the call lasts its record binds
  them, and whatever is assigned to them, at whatever depth, is written there or further inside.

  1. **Bindings of a call** — `Table.ofPairs` binds each name to the last entry that it comes with,
     and no other names (`get?_ofPairs`).
  2. **Arguments** — they have their values one after the other, from the first to the last, and none
     is evaluated inside the call that they are for (`each_at`).
  3. **The shield** — behind the last argument, in every state up to the one in which the call is
     over, nothing disturbs what is known of a parameter below the record of the call
     (`undisturbed_in_call`).
-/
import MiniLang.Proofs.Running.Handing

namespace MiniLang

/-! ## Bindings of a call -/

namespace Table

variable {α : Type} {name : String}

theorem get?_foldl_set : ∀ {pairs : List (String × α)} (t : Table α), name ∉ pairs.map (·.1) →
    (pairs.foldl (fun t entry => t.set entry.1 entry.2) t).get? name = t.get? name := by
  intro pairs
  induction pairs with
  | nil => exact fun _ _ => rfl
  | cons pair rest ih =>
    intro t hname
    obtain ⟨hfirst, hrest⟩ := not_or.mp (List.mem_cons.not.mp hname)
    rw [List.foldl_cons, ih _ hrest, get?_set_of_ne _ _ hfirst]

/-- A name that is given several entries keeps the last one. -/
theorem get?_ofPairs {before behind : List String} {entries : List α}
    (hlength : (before ++ name :: behind).length = entries.length) (hlast : name ∉ behind) :
    ∃ a, entries[before.length]? = some a ∧
      (ofPairs (before ++ name :: behind) entries).get? name = some a := by
  have hlt : before.length < entries.length := by
    rw [← hlength, List.length_append, List.length_cons]
    omega
  refine ⟨entries[before.length], List.getElem?_eq_getElem hlt, ?_⟩
  have hsplit : entries = entries.take before.length ++
      entries[before.length] :: entries.drop (before.length + 1) := by
    rw [← List.drop_eq_getElem_cons hlt, List.take_append_drop]
  have hbefore : before.length = (entries.take before.length).length := by
    rw [List.length_take]
    omega
  have hbehind : name ∉ (behind.zip (entries.drop (before.length + 1))).map (·.1) := by
    intro hmem
    obtain ⟨pair, hpair, rfl⟩ := List.mem_map.mp hmem
    exact hlast (List.of_mem_zip hpair).1
  have hzip : (before ++ name :: behind).zip entries =
      before.zip (entries.take before.length) ++
        (name, entries[before.length]) :: behind.zip (entries.drop (before.length + 1)) := by
    conv => lhs; rw [hsplit, List.zip_append hbefore, List.zip_cons_cons]
  rw [ofPairs, hzip, List.foldl_append, List.foldl_cons, get?_foldl_set _ hbehind, get?_set_self]

theorem get?_ofPairs_of_notMem {names : List String} (entries : List α) (h : name ∉ names) :
    (ofPairs names entries).get? name = none := by
  refine get?_foldl_set [] ?_
  intro hmem
  obtain ⟨pair, hpair, rfl⟩ := List.mem_map.mp hmem
  exact h (List.of_mem_zip hpair).1

/-- Every name is bound. -/
theorem mem_names_ofPairs {names : List String} {entries : List α}
    (hlength : names.length = entries.length) (hname : name ∈ names) :
    name ∈ (ofPairs names entries).names := by
  obtain ⟨behind, before, hsplit, hlast⟩ :=
    List.eq_append_cons_of_mem (List.mem_reverse.mpr hname)
  have hnames : names = before.reverse ++ name :: behind.reverse := by
    rw [← List.reverse_reverse names, hsplit]
    simp
  subst hnames
  obtain ⟨a, -, hget⟩ := get?_ofPairs hlength (mt List.mem_reverse.mp hlast)
  have hhas : (ofPairs (before.reverse ++ name :: behind.reverse) entries).has name = true := by
    rw [has, hget]
    rfl
  exact (has_iff_mem _ name).mp hhas

end Table

/-! ## Arguments -/

namespace Eval

theorem ok_of_bind {α β : Type} {x : Eval α} {f : α → Eval β} {b : β} {m m' : Machine}
    (h : (x >>= f) m = .ok b m') : ∃ a m₁, x m = .ok a m₁ ∧ f a m₁ = .ok b m' := by
  cases hx : x m with
  | error halt m₁ =>
    rw [bind_of_error hx] at h
    cases h
  | ok a m₁ =>
    rw [bind_of_ok hx] at h
    exact ⟨a, m₁, rfl, h⟩

variable {eval : Expr → Eval Int}

theorem each_cons {e : Expr} {rest : List Expr} {vs : List Int} {m m' : Machine}
    (h : each eval (e :: rest) m = .ok vs m') :
    ∃ v vs' m₁, vs = v :: vs' ∧ eval e m = .ok v m₁ ∧ each eval rest m₁ = .ok vs' m' := by
  rw [each] at h
  obtain ⟨v, m₁, he, hrest⟩ := ok_of_bind h
  obtain ⟨vs', m₂, hrest, hvs⟩ := ok_of_bind hrest
  cases hvs
  exact ⟨v, vs', m₁, rfl, he, hrest⟩

theorem length_each : ∀ {es : List Expr} {vs : List Int} {m m' : Machine},
    each eval es m = .ok vs m' → vs.length = es.length := by
  intro es
  induction es with
  | nil =>
    intro vs m m' h
    cases h
    rfl
  | cons e rest ih =>
    intro vs m m' h
    obtain ⟨v, vs', m₁, rfl, -, hrest⟩ := each_cons h
    rw [List.length_cons, List.length_cons, ih hrest]

/-- Each expression of a row has its value in the state that those before it lead to. -/
theorem each_at : ∀ {before : List Expr} {e : Expr} {behind : List Expr} {vs : List Int}
    {m m' : Machine}, each eval (before ++ e :: behind) m = .ok vs m' →
    ∃ ws v ws' m₁ m₂, vs = ws ++ v :: ws' ∧ each eval before m = .ok ws m₁ ∧
      eval e m₁ = .ok v m₂ ∧ each eval behind m₂ = .ok ws' m' := by
  intro before
  induction before with
  | nil =>
    intro e behind vs m m' h
    obtain ⟨v, vs', m₁, rfl, he, hbehind⟩ := each_cons h
    exact ⟨[], v, vs', m, m₁, rfl, rfl, he, hbehind⟩
  | cons e' rest ih =>
    intro e behind vs m m' h
    obtain ⟨v', vs', m₁, rfl, he', hrest⟩ := each_cons h
    obtain ⟨ws, v, ws', m₂, m₃, rfl, hbefore, he, hbehind⟩ := ih hrest
    refine ⟨v' :: ws, v, ws', m₂, m₃, rfl, ?_, he, hbehind⟩
    rw [each, bind_of_ok he', bind_of_ok hbefore]
    rfl

end Eval

/-! ## The shield -/

/-- The state in which the body of a function begins, behind the last argument. -/
def Machine.enter (m : Machine) (f : FunctionDef) (vs : List Int) : Machine :=
  { m with stack := ⟨f.name, .ofPairs f.params vs⟩ :: m.stack }

/-- The state in which a call is over, behind the end of the body. -/
def Machine.leave (m : Machine) : Machine := { m with stack := m.stack.tail }

theorem Machine.outline_enter (m : Machine) (f : FunctionDef) (vs : List Int) :
    (m.enter f vs).outline = (f.name, (Table.ofPairs f.params vs).names) :: m.outline := rfl

section

variable {limits : Limits} {d : Nat} {span : Span} {name : String} {args : List Expr}
  {f : FunctionDef} {vs : List Int} {m m₁ m₂ : Machine}

/-- Behind its last argument, a call is the body of the function in a record of its own. -/
theorem call_of_args (hname : name ≠ printName)
    (hcallee : Eval.callee span name args.length m = .ok f m₁)
    (hargs : Eval.each (Expr.eval limits d) args m₁ = .ok vs m₂) :
    callFunction limits (d + 1) span name args m =
      match f.body.exec limits d (m₂.enter f vs) with
      | .ok completion m' => .ok (completion.value?.getD 0) m'.leave
      | .error halt m' => .error halt m'.leave := by
  unfold callFunction
  rw [if_neg hname, Eval.bind_of_ok hcallee, Eval.bind_of_ok hargs]
  cases hbody : f.body.exec limits d (m₂.enter f vs) with
  | error halt m' => rw [Eval.bind_of_error (Eval.within_of_error hbody)]; rfl
  | ok completion m' =>
    rw [Eval.bind_of_ok (Eval.within_of_ok hbody)]
    cases completion with
    | next => rfl
    | returned v => rfl

theorem after_call_of_args (hname : name ≠ printName)
    (hcallee : Eval.callee span name args.length m = .ok f m₁)
    (hargs : Eval.each (Expr.eval limits d) args m₁ = .ok vs m₂) :
    (callFunction limits (d + 1) span name args).after m =
      ((f.body.exec limits d).after (m₂.enter f vs)).leave := by
  have hcall := call_of_args hname hcallee hargs
  cases hbody : f.body.exec limits d (m₂.enter f vs) with
  | error halt m' =>
    rw [hbody] at hcall
    rw [Eval.after_of_error hcall, Eval.after_of_error hbody]
  | ok completion m' =>
    rw [hbody] at hcall
    rw [Eval.after_of_ok hcall, Eval.after_of_ok hbody]

/-- What a call passes behind its last argument: the states of the body, and the one it leaves. -/
theorem passed_of_args (hname : name ≠ printName)
    (hcallee : Eval.callee span name args.length m = .ok f m₁)
    (hargs : Eval.each (Expr.eval limits d) args m₁ = .ok vs m₂) :
    callPassed limits (d + 1) span name args m =
      Log.each (Expr.eval limits d) (Expr.passed limits d) args m₁ ++
        m₂.enter f vs :: f.body.passed limits d (m₂.enter f vs) ++
        [(callFunction limits (d + 1) span name args).after m] := by
  have hleft := Eval.after_within ⟨f.name, .ofPairs f.params vs⟩ (f.body.exec limits d) m₂
  unfold callPassed
  rw [if_neg hname, Log.thenOf_of_ok hcallee, Log.thenOf_of_ok hargs, Log.call, hleft,
    after_call_of_args hname hcallee hargs, List.append_assoc]
  rfl

/-- As long as its body lasts the record of a call is there, on top of those of the caller. -/
theorem live_in_call : ∀ m' ∈ m.enter f vs :: f.body.passed limits d (m.enter f vs),
    (m.enter f vs).outline <:+ m'.outline :=
  ((evaluator_accounts limits d).exec f.body (m.enter f vs)).path.invariant (List.suffix_refl _)
    fun _ _ hchanges _ => hchanges.outline.2

/-- In the body of a call nothing disturbs what is known of its parameters below its record: by
    induction on the states passed. -/
theorem undisturbed_in_call (hlength : f.params.length = vs.length) {x : String}
    (hx : x ∈ f.params) :
    ∀ m' ∈ m.enter f vs :: f.body.passed limits d (m.enter f vs), m.Undisturbed x m' := by
  have hpath := ((evaluator_accounts limits d).exec f.body (m.enter f vs)).path
  refine hpath.invariant ⟨rfl, List.suffix_cons _ _⟩ ?_
  intro a b hchanges ha
  have hlive := hchanges.outline
  obtain ⟨_, t, m₁, -, hdoes⟩ := hchanges
  rw [Machine.outline_enter] at hlive
  have hbelow : m.outline <:+ b.outline := (List.suffix_cons _ _).trans hlive.2
  refine hdoes.undisturbed hbelow ha ?_
  -- the record of the call binds the name, so the assignment goes no further out
  intro span e v _
  exact ha.assign_of_bound hlive.1 (Table.mem_names_ofPairs hlength hx) v

/-- A call that is over has left what is known of its parameters as it was behind its arguments. -/
theorem same_behind_call (hname : name ≠ printName)
    (hcallee : Eval.callee span name args.length m = .ok f m₁)
    (hargs : Eval.each (Expr.eval limits d) args m₁ = .ok vs m₂)
    (hlength : f.params.length = vs.length) {x : String} (hx : x ∈ f.params) :
    ((callFunction limits (d + 1) span name args).after m).bindings x = m₂.bindings x ∧
    ((callFunction limits (d + 1) span name args).after m).globals.get? x = m₂.globals.get? x := by
  have hlast : (f.body.exec limits d).after (m₂.enter f vs) ∈
      m₂.enter f vs :: f.body.passed limits d (m₂.enter f vs) := closes_exec f.body _
  have hkept := undisturbed_in_call hlength hx _ hlast
  have houtline := (evaluator_keeps Machine.lasting_outline limits d).exec f.body (m₂.enter f vs)
  rw [after_call_of_args hname hcallee hargs]
  refine ⟨?_, hkept.entry⟩
  generalize (f.body.exec limits d).after (m₂.enter f vs) = last at hkept houtline
  -- the record that is taken away is the one on top of those of the caller
  have hlength : (m₂.bindings x).length = (last.leave.bindings x).length := by
    have htail : last.leave.outline = last.outline.tail := List.map_tail
    rw [Machine.length_bindings, Machine.length_bindings, htail, houtline]
    rfl
  have htail : last.leave.bindings x <:+ last.bindings x := (List.tail_suffix last.stack).map _
  have hsuffix := List.suffix_of_suffix_length_le hkept.bindings htail (Nat.le_of_eq hlength)
  exact (hsuffix.eq_of_length hlength).symm

end

/-- **Parameters shield the caller.**  Take a call of a function, and the state that its arguments
    lead to.

    1. What the call passes from then on are the states of the body, from the one in which the
       record of the call is in place, and the state that it leaves.
    2. Whatever is assigned in the body and in all that it calls, in none of these states is
       anything disturbed that is known of a parameter below the record of the call, in the calls
       that were live before or globally; nor is it in the state that the call leaves, whichever way
       it ended.
    3. Each argument has its value where those before it led to, among the live calls of the caller.
       A parameter is bound to the value of its argument, or of the last one if its name comes
       again; no other name is bound. -/
theorem parameters_shield {limits : Limits} {d : Nat} {span : Span} {name : String}
    {args : List Expr} {f : FunctionDef} {vs : List Int} {m m₂ : Machine} (hname : name ≠ printName)
    (hf : m.callee? name = some f) (harity : f.params.length = args.length)
    (hargs : Eval.each (Expr.eval limits d) args m = .ok vs m₂) :
    callPassed limits (d + 1) span name args m =
      Log.each (Expr.eval limits d) (Expr.passed limits d) args m ++
        m₂.enter f vs :: f.body.passed limits d (m₂.enter f vs) ++
        [(callFunction limits (d + 1) span name args).after m] ∧
    ((∀ m' ∈ m₂.enter f vs :: f.body.passed limits d (m₂.enter f vs),
      (m₂.enter f vs).outline <:+ m'.outline ∧ ∀ x ∈ f.params, m₂.Undisturbed x m') ∧
      ∀ x ∈ f.params,
        ((callFunction limits (d + 1) span name args).after m).bindings x = m₂.bindings x ∧
        ((callFunction limits (d + 1) span name args).after m).globals.get? x =
          m₂.globals.get? x) ∧
    (∀ before e behind ps x qs, args = before ++ e :: behind → f.params = ps ++ x :: qs →
      ps.length = before.length →
      ∃ ws v m₁ m₁', Eval.each (Expr.eval limits d) before m = .ok ws m₁ ∧
        m₁.outline = m.outline ∧ e.eval limits d m₁ = .ok v m₁' ∧
        (x ∉ qs → (Table.ofPairs f.params vs).get? x = some v)) ∧
    ∀ x, x ∉ f.params → (Table.ofPairs f.params vs).get? x = none := by
  have hkeeps := evaluator_keeps Machine.lasting_outline limits d
  have hlength : f.params.length = vs.length := harity.trans (Eval.length_each hargs).symm
  have hcallee : Eval.callee span name args.length m = .ok f m := by
    rcases Eval.callee_cases span name args.length m with ⟨hnone, -⟩ | ⟨g, hg, hcases⟩
    · rw [hnone] at hf
      cases hf
    · rw [hg] at hf
      cases hf
      rcases hcases with ⟨-, hfound⟩ | ⟨hother, -⟩
      · exact hfound
      · exact absurd harity hother
  refine ⟨passed_of_args hname hcallee hargs, ⟨?_, ?_⟩, ?_, ?_⟩
  · intro m' hm'
    exact ⟨live_in_call m' hm', fun x hx => undisturbed_in_call hlength hx m' hm'⟩
  · intro x hx
    exact same_behind_call hname hcallee hargs hlength hx
  · rintro before e behind ps x qs rfl hparams hposition
    obtain ⟨ws, v, ws', m₁, m₁', rfl, hbefore, he, -⟩ := Eval.each_at hargs
    refine ⟨ws, v, m₁, m₁', hbefore, ?_, he, ?_⟩
    · exact (Eval.Keeps.each Machine.lasting_outline hkeeps.eval before).of_ok hbefore
    · intro hlast
      rw [hparams] at hlength ⊢
      obtain ⟨a, ha, hget⟩ := Table.get?_ofPairs hlength hlast
      rw [hposition, ← Eval.length_each hbefore, List.getElem?_append_right (Nat.le_refl _),
        Nat.sub_self] at ha
      cases ha
      exact hget
  · exact fun x hx => Table.get?_ofPairs_of_notMem vs hx

/-- A function that is given one name twice, and that assigns and fails through another one; a third
    one, called by an argument, assigns what the caller binds. -/
def guarded : Program :=
  { span := .nowhere
    functions := [
      ⟨.nowhere, "f", ["a", "b", "a"], .block .nowhere [
        .expr .nowhere (.call .nowhere "g" []),
        .expr .nowhere (.binary .nowhere (.lit .nowhere 1) .slash (.lit .nowhere 0))]⟩,
      ⟨.nowhere, "g", [], .block .nowhere [
        .assign .nowhere "a" (.lit .nowhere 100),
        .assign .nowhere "b" (.var .nowhere "a")]⟩,
      ⟨.nowhere, "h", [], .block .nowhere [
        .assign .nowhere "b" (.lit .nowhere 8),
        .ret .nowhere (some (.var .nowhere "a"))]⟩]
    body := .block .nowhere [] }

/-- `h(), b, 3`. -/
def guarded.arguments : List Expr := [.call .nowhere "h" [], .var .nowhere "b", .lit .nowhere 3]

/-- A state in which a caller binds both names. -/
def guarded.inCaller : Machine :=
  { guarded.start with stack := [⟨"caller", [("a", 1), ("b", 2)]⟩, mainRecord] }

/-- The arguments still write what the caller binds; the call, which assigns both names in its own
    record and then fails, does not. -/
theorem guarded_shields :
    let limits : Limits := ⟨some 30, 0, 30⟩
    let left := (callFunction limits 30 .nowhere "f" guarded.arguments).after guarded.inCaller
    ∃ f m₂, guarded.inCaller.callee? "f" = some f ∧
      Eval.each (Expr.eval limits 29) guarded.arguments guarded.inCaller = .ok [1, 8, 3] m₂ ∧
      Table.get? (.ofPairs f.params [1, 8, 3]) "a" = some (3 : Int) ∧
      left.steps = 9 ∧ left.bindings "a" = [some 1, none] ∧ left.bindings "b" = [some 8, none] := by
  intro limits left
  obtain ⟨f, hf, hparams⟩ : ∃ f, guarded.inCaller.callee? "f" = some f ∧
      f.params = ["a", "b", "a"] := ⟨_, rfl, rfl⟩
  have hvalues : (match Eval.each (Expr.eval limits 29) guarded.arguments guarded.inCaller with
      | .ok vs _ => some vs
      | .error _ _ => none) = some [1, 8, 3] := by decide +kernel
  have hbehind :
      ((Eval.each (Expr.eval limits 29) guarded.arguments).after guarded.inCaller).bindings "a" =
        [some 1, none] ∧
      ((Eval.each (Expr.eval limits 29) guarded.arguments).after guarded.inCaller).bindings "b" =
        [some 8, none] := by decide +kernel
  cases hargs : Eval.each (Expr.eval limits 29) guarded.arguments guarded.inCaller with
  | error halt m₂ => simp [hargs] at hvalues
  | ok vs m₂ =>
    simp only [hargs] at hvalues
    cases hvalues
    rw [Eval.after_of_ok hargs] at hbehind
    obtain ⟨-, ⟨-, hsame⟩, hvalue, -⟩ :=
      @parameters_shield limits 29 .nowhere "f" guarded.arguments f [1, 8, 3] guarded.inCaller m₂
        (by decide) hf (by rw [hparams]; rfl) hargs
    obtain ⟨_, v, _, _, -, -, hthree, hbound⟩ := hvalue [.call .nowhere "h" [], .var .nowhere "b"]
      (.lit .nowhere 3) [] ["a", "b"] "a" [] rfl hparams rfl
    cases hthree
    refine ⟨f, m₂, hf, rfl, hbound List.not_mem_nil, by decide +kernel, ?_, ?_⟩
    · exact (hsame "a" (by rw [hparams]; decide)).1.trans hbehind.1
    · exact (hsame "b" (by rw [hparams]; decide)).1.trans hbehind.2

end MiniLang
