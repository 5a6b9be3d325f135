/-
  The trees that a source can stand for.

  `Parsed` says what the parser guarantees of a tree, apart from any text: values are words, names
  are identifiers and no keywords, operators belong to a level, the branch before an `else` leaves
  no `if` open, and bodies are blocks.  Unary minus leaves nothing to say: it is a difference.

  1. **The invariant** — one predicate for each sort of tree.
  2. **From phrases** — what tokens from a source stand for is `Parsed`.
  3. **Places** — the invariant does not look at them.
-/
import MiniLang.Proofs.Lexing.Words

namespace MiniLang

open Parse (Level Item)

/-! ## The invariant -/

/-- An expression that some source stands for. -/
inductive Expr.Parsed : Expr → Prop
  | lit {span v} : Word.InRange v → Parsed (.lit span v)
  | var {span name} : Token.IsName name → Parsed (.var span name)
  | binary {span left right} {op : Token.Kind} (l : Level) : l.holds op = true → Parsed left →
      Parsed right → Parsed (.binary span left op right)
  | call {span name args} : Token.IsName name ∨ name = printName → (∀ a ∈ args, Parsed a) →
      Parsed (.call span name args)

/-- A statement that some source stands for. -/
inductive Stmt.Parsed : Stmt → Prop
  | block {span body} : (∀ s ∈ body, Parsed s) → Parsed (.block span body)
  | expr {span e} : e.Parsed → Parsed (.expr span e)
  | assign {span name value} : Token.IsName name → value.Parsed →
      Parsed (.assign span name value)
  | ifThen {span cond yes} : cond.Parsed → Parsed yes → Parsed (.ifElse span cond yes none)
  | ifElse {span cond yes no} : cond.Parsed → Parsed yes → yes.dangles = false → Parsed no →
      Parsed (.ifElse span cond yes (some no))
  | loop {span cond body} : cond.Parsed → Parsed body → Parsed (.loop span cond body)
  | retNone {span} : Parsed (.ret span none)
  | ret {span e} : e.Parsed → Parsed (.ret span (some e))

/-- A block that some source stands for. -/
def Stmt.ParsedBlock (s : Stmt) : Prop := ∃ span body, s = .block span body ∧ ∀ s ∈ body, s.Parsed

theorem Stmt.ParsedBlock.parsed {s : Stmt} (h : s.ParsedBlock) : s.Parsed := by
  obtain ⟨span, body, rfl, hbody⟩ := h
  exact .block hbody

/-- A definition that some source stands for. -/
structure FunctionDef.Parsed (f : FunctionDef) : Prop where
  name : Token.IsName f.name
  params : ∀ param ∈ f.params, Token.IsName param
  body : f.body.ParsedBlock

/-- A program that some source stands for. -/
structure Program.Parsed (p : Program) : Prop where
  functions : ∀ f ∈ p.functions, f.Parsed
  body : p.body.ParsedBlock

/-! ## From phrases -/

namespace Grammar

open Token (FromSource)

/-- Tokens that a source can have. -/
def FromSources (ts : List Token) : Prop := ∀ t ∈ ts, FromSource t

theorem fromSources_cons {t : Token} {ts : List Token} :
    FromSources (t :: ts) ↔ FromSource t ∧ FromSources ts := List.forall_mem_cons

theorem fromSources_append {ts us : List Token} :
    FromSources (ts ++ us) ↔ FromSources ts ∧ FromSources us := List.forall_mem_append

theorem fromSources_inner {l r : Token} {ts : List Token} : FromSources (l :: ts ++ [r]) →
    FromSources ts := by
  intro h
  exact (fromSources_append.mp (fromSources_cons.mp h).2).1

theorem AfterCommas.fromSources {ps : List (List Token)} {ts : List Token} : AfterCommas ps ts →
    FromSources ts → ∀ p ∈ ps, FromSources p := by
  intro h
  induction h with
  | nil => exact fun _ => nofun
  | cons _ _ ih =>
    intro hts
    obtain ⟨hp, hrest⟩ := fromSources_append.mp hts
    exact List.forall_mem_cons.mpr ⟨(fromSources_cons.mp hp).2, ih hrest⟩

theorem Separated.fromSources {ps : List (List Token)} {ts : List Token} : Separated ps ts →
    FromSources ts → ∀ p ∈ ps, FromSources p := by
  intro h hts
  cases h with
  | nil => exact nofun
  | cons h =>
    obtain ⟨hp, hrest⟩ := fromSources_append.mp hts
    exact List.forall_mem_cons.mpr ⟨hp, h.fromSources hrest⟩

/-- What a call may call. -/
theorem callName_of_fromSource {t : Token} : FromSource t → t.kind = .name ∨ t.kind = .kwPrint →
    Token.IsName t.lexeme ∨ t.lexeme = printName := by
  rintro h (hname | hprint)
  · exact Or.inl (h.name hname)
  · exact Or.inr (h.print hprint)

theorem Expression.parsed {o : Option Level} {ts : List Token} {e : Expr} : Expression o ts e →
    FromSources ts → e.Parsed := by
  intro h
  induction h with
  | @number t ht =>
    intro hts
    obtain ⟨v, hv, hrange⟩ := (hts t List.mem_cons_self).number ht
    rw [hv]
    exact .lit hrange
  | @name t ht =>
    intro hts
    exact .var ((hts t List.mem_cons_self).name ht)
  | call ht hp hsep _ ih =>
    intro hts
    obtain ⟨hfirst, hrest⟩ := fromSources_cons.mp hts
    have hparts := hsep.fromSources (fromSources_inner hrest)
    refine .call (callName_of_fromSource hfirst ht) (List.forall_mem_map.mpr ?_)
    intro a ha
    exact ih a ha (hparts a.1 (List.mem_map_of_mem ha))
  | parens _ _ ih =>
    intro hts
    exact ih (fromSources_inner hts)
  | minus _ _ ih =>
    intro hts
    have hzero : Word.InRange 0 := by decide
    exact .binary .additive rfl (.lit hzero) (ih (fromSources_cons.mp hts).2)
  | operand _ ih => exact ih
  | @binary l _ _ _ _ _ _ hop _ iha ihb =>
    intro hts
    obtain ⟨hleft, hrest⟩ := fromSources_append.mp hts
    exact .binary l hop (iha hleft) (ihb (fromSources_cons.mp hrest).2)

theorem Head.parsed {keyword : Token.Kind} {ts : List Token} {c : Expr} : Head keyword ts c →
    FromSources ts → c.Parsed := by
  rintro ⟨_, _, hc⟩ hts
  exact hc.parsed (fromSources_inner (fromSources_cons.mp hts).2)

theorem fromSources_flatten {ps : List (List Token)} : FromSources ps.flatten →
    ∀ p ∈ ps, FromSources p := by
  intro h p hp t ht
  exact h t (List.mem_flatten_of_mem hp ht)

theorem Statement.parsed {ts : List Token} {s : Stmt} : Statement ts s → FromSources ts →
    s.Parsed := by
  intro h
  induction h with
  | retNone => exact fun _ => .retNone
  | ret _ he _ =>
    intro hts
    exact .ret (he.parsed (fromSources_inner hts))
  | ifThen hhead _ ih =>
    intro hts
    obtain ⟨hcond, hyes⟩ := fromSources_append.mp hts
    exact .ifThen (hhead.parsed hcond) (ih hyes)
  | ifElse hhead _ hdangles _ _ ihyes ihno =>
    intro hts
    obtain ⟨hthen, helse⟩ := fromSources_append.mp hts
    obtain ⟨hcond, hyes⟩ := fromSources_append.mp hthen
    exact .ifElse (hhead.parsed hcond) (ihyes hyes) hdangles (ihno (fromSources_cons.mp helse).2)
  | loop hhead _ ih =>
    intro hts
    obtain ⟨hcond, hbody⟩ := fromSources_append.mp hts
    exact .loop (hhead.parsed hcond) (ih hbody)
  | block _ _ _ ih =>
    intro hts
    have hparts := fromSources_flatten (fromSources_inner hts)
    refine .block (List.forall_mem_map.mpr ?_)
    intro b hb
    exact ih b hb (hparts b.1 (List.mem_map_of_mem hb))
  | call hcall _ =>
    intro hts
    exact .expr (hcall.expression.parsed (fromSources_append.mp hts).1)
  | assign ht _ he _ =>
    intro hts
    obtain ⟨hname, hrest⟩ := fromSources_cons.mp hts
    exact .assign (hname.name ht) (he.parsed (fromSources_inner hrest))
  | expr he _ _ =>
    intro hts
    exact .expr (he.parsed (fromSources_append.mp hts).1)

/-- What stands for a block is made of what stands for its statements. -/
theorem Statement.parsedBlock {ts : List Token} {span : Span} {body : List Stmt} :
    Statement ts (.block span body) → FromSources ts → (Stmt.block span body).ParsedBlock := by
  intro h hts
  refine ⟨span, body, rfl, ?_⟩
  cases h.parsed hts with
  | block hbody => exact hbody

theorem Definition.parsed {ts : List Token} {f : FunctionDef} : Definition ts f →
    FromSources ts → f.Parsed := by
  intro h hts
  obtain ⟨_, hname, _, hparams, hsep, hbody⟩ := h
  obtain ⟨_, hts⟩ := fromSources_cons.mp hts
  obtain ⟨hfirst, hts⟩ := fromSources_cons.mp hts
  obtain ⟨_, hts⟩ := fromSources_cons.mp hts
  obtain ⟨hrow, hts⟩ := fromSources_append.mp hts
  have hparts := hsep.fromSources hrow
  exact {
    name := hfirst.name hname
    params := by
      refine List.forall_mem_map.mpr fun p hp => ?_
      have hp' := hparts [p] (List.mem_map_of_mem hp)
      exact (hp' p List.mem_cons_self).name (hparams p hp)
    body := hbody.parsedBlock (fromSources_cons.mp hts).2 }

theorem Program.parsed {ts : List Token} {stop : Token} {p : MiniLang.Program} :
    Program (ts ++ [stop]) p → FromSources ts → p.Parsed := by
  intro h hts
  -- the last token of the phrase is the end marker, which need not come from a source
  generalize htokens : ts ++ [stop] = tokens at h
  obtain ⟨hitems, _⟩ := h
  rw [(List.append_inj' htokens rfl).1] at hts
  have hparts := fromSources_flatten hts
  exact {
    functions := by
      intro f hf
      obtain ⟨i, hi, hdefinition⟩ := List.mem_filterMap.mp hf
      obtain ⟨a, ha, rfl⟩ := List.mem_map.mp hi
      have htop := hitems a ha
      have hsources := hparts a.1 (List.mem_map_of_mem ha)
      cases hitem : a.2 with
      | statement s =>
        rw [hitem] at hdefinition
        cases hdefinition
      | definition g =>
        rw [hitem] at hdefinition htop
        cases hdefinition
        cases htop with
        | definition hdef => exact hdef.parsed hsources
    body := by
      refine ⟨.nowhere, _, rfl, ?_⟩
      intro s hs
      obtain ⟨i, hi, hstatement⟩ := List.mem_filterMap.mp hs
      obtain ⟨a, ha, rfl⟩ := List.mem_map.mp hi
      have htop := hitems a ha
      have hsources := hparts a.1 (List.mem_map_of_mem ha)
      cases hitem : a.2 with
      | definition g =>
        rw [hitem] at hstatement
        cases hstatement
      | statement s' =>
        rw [hitem] at hstatement htop
        cases hstatement
        cases htop with
        | statement hstmt => exact hstmt.parsed hsources }

end Grammar

/-! ## Places -/

/-- By induction on the bare tree, which is of the same shape. -/
theorem Expr.Parsed.of_bare {e' : Expr} : e'.Parsed → ∀ {e : Expr}, e.bare = e' → e.Parsed := by
  intro h
  induction h with
  | lit hv =>
    intro e heq
    cases e with
    | lit =>
      rw [Expr.bare_lit] at heq
      cases heq
      exact .lit hv
    | _ => simp at heq
  | var hname =>
    intro e heq
    cases e with
    | var =>
      rw [Expr.bare_var] at heq
      cases heq
      exact .var hname
    | _ => simp at heq
  | binary l hop _ _ ihleft ihright =>
    intro e heq
    cases e with
    | binary =>
      rw [Expr.bare_binary] at heq
      cases heq
      exact .binary l hop (ihleft rfl) (ihright rfl)
    | _ => simp at heq
  | call hname _ ih =>
    intro e heq
    cases e with
    | call =>
      rw [Expr.bare_call] at heq
      cases heq
      exact .call hname fun a ha => ih a.bare (List.mem_map_of_mem ha) rfl
    | _ => simp at heq

theorem Stmt.Parsed.of_bare {s' : Stmt} : s'.Parsed → ∀ {s : Stmt}, s.bare = s' → s.Parsed := by
  intro h
  induction h with
  | block _ ih =>
    intro s heq
    cases s with
    | block =>
      rw [Stmt.bare_block] at heq
      cases heq
      exact .block fun s hs => ih s.bare (List.mem_map_of_mem hs) rfl
    | _ => simp at heq
  | expr he =>
    intro s heq
    cases s with
    | expr =>
      rw [Stmt.bare_expr] at heq
      cases heq
      exact .expr (he.of_bare rfl)
    | _ => simp at heq
  | assign hname he =>
    intro s heq
    cases s with
    | assign =>
      rw [Stmt.bare_assign] at heq
      cases heq
      exact .assign hname (he.of_bare rfl)
    | _ => simp at heq
  | ifThen hcond _ ih =>
    intro s heq
    cases s with
    | ifElse span cond yes no =>
      rw [Stmt.bare_ifElse] at heq
      cases no with
      | none =>
        cases heq
        exact .ifThen (hcond.of_bare rfl) (ih rfl)
      | some no => cases heq
    | _ => simp at heq
  | ifElse hcond _ hdangles _ ihyes ihno =>
    intro s heq
    cases s with
    | ifElse span cond yes no =>
      rw [Stmt.bare_ifElse] at heq
      cases no with
      | none => cases heq
      | some no =>
        cases heq
        rw [Parse.dangles_bare] at hdangles
        exact .ifElse (hcond.of_bare rfl) (ihyes rfl) hdangles (ihno rfl)
    | _ => simp at heq
  | loop hcond _ ih =>
    intro s heq
    cases s with
    | loop =>
      rw [Stmt.bare_loop] at heq
      cases heq
      exact .loop (hcond.of_bare rfl) (ih rfl)
    | _ => simp at heq
  | retNone =>
    intro s heq
    cases s with
    | ret span value =>
      rw [Stmt.bare_ret] at heq
      cases value with
      | none => exact .retNone
      | some e => cases heq
    | _ => simp at heq
  | ret he =>
    intro s heq
    cases s with
    | ret span value =>
      rw [Stmt.bare_ret] at heq
      cases value with
      | none => cases heq
      | some e =>
        cases heq
        exact .ret (he.of_bare rfl)
    | _ => simp at heq

theorem Stmt.ParsedBlock.of_bare {s : Stmt} : s.bare.ParsedBlock → s.ParsedBlock := by
  rintro ⟨span, body, heq, hbody⟩
  have hparsed : s.Parsed := (Stmt.Parsed.block hbody).of_bare heq
  cases hparsed with
  | block hbody => exact ⟨_, _, rfl, hbody⟩
  | _ => simp at heq

theorem Program.Parsed.of_bare {p : Program} : p.bare.Parsed → p.Parsed := by
  rintro ⟨hfunctions, hbody⟩
  refine ⟨fun f hf => ?_, hbody.of_bare⟩
  obtain ⟨hname, hparams, hfbody⟩ := hfunctions f.bare (List.mem_map_of_mem hf)
  exact ⟨hname, hparams, hfbody.of_bare⟩

end MiniLang
