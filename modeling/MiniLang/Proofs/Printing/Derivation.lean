/-
  What is printed is a phrase for the tree it was printed from.

  1. **Levels** — an expression of a level may stand where a looser one is expected; the printer
     asks for parentheses exactly where it may not.
  2. **Expressions** — by induction on the invariant, in every context.
  3. **Statements** — an expression that begins like a call and is none is put in parentheses, and
     any other one is no reserved beginning (`beginCall_of_reserved`).
  4. **Words** — every printed token can be read.
-/
import MiniLang.Proofs.Parsing.Sound
import MiniLang.Proofs.Printing.Parsed
import MiniLang.Proofs.Printing.Words

namespace MiniLang

open Parse (Level Item)

/-! ## Levels -/

theorem Parse.Level.level_of_holds {l : Level} {op : Token.Kind} : l.holds op = true →
    op.level = l := by
  intro h
  revert h
  cases l <;> cases op <;> decide

namespace Grammar

theorem Expression.loosen {l context : Level} {ts : List Token} {e : Expr} :
    Expression (some l) ts e → context.rank ≤ l.rank → Expression (some context) ts e := by
  intro h hle
  -- each level is one step looser than the next one
  have hone : ∀ l l' : Level, l.tighter? = some l' → Expression (some l') ts e →
      Expression (some l) ts e := by
    intro l l' htighter he
    exact .operand (by rw [htighter]; exact he)
  cases context with
  | multiplicative => cases l <;> first | exact h | exact absurd hle (by decide)
  | additive =>
    cases l with
    | multiplicative => exact hone _ _ rfl h
    | additive => exact h
    | _ => exact absurd hle (by decide)
  | relational =>
    cases l with
    | multiplicative => exact hone _ .additive rfl (hone _ _ rfl h)
    | additive => exact hone _ _ rfl h
    | relational => exact h
    | equality => exact absurd hle (by decide)
  | equality =>
    cases l with
    | multiplicative => exact hone _ .relational rfl (hone _ .additive rfl (hone _ _ rfl h))
    | additive => exact hone _ .relational rfl (hone _ _ rfl h)
    | relational => exact hone _ _ rfl h
    | equality => exact h

/-- An expression of a level stands where it fits, and in parentheses anywhere. -/
theorem Expression.inContext {l : Level} {ts : List Token} {e : Expr} :
    Expression (some l) ts e → ∀ context, Expression context
      (if l.fits context then ts else Token.parenthesised ts) e := by
  intro h context
  by_cases hfits : l.fits context = true
  · rw [if_pos hfits]
    cases context with
    | none => cases hfits
    | some context => exact h.loosen (of_decide_eq_true hfits)
  · rw [if_neg hfits]
    have hequality : Expression (some .equality) ts e := h.loosen (by cases l <;> decide)
    exact of_none (.parens ⟨rfl, rfl⟩ hequality) context

/-! ## Expressions -/

theorem afterCommas_of_rows : ∀ rows : List (List Token),
    AfterCommas rows (rows.map (Token.ofKind .comma :: ·)).flatten := by
  intro rows
  induction rows with
  | nil => exact .nil
  | cons row rows ih => exact .cons rfl ih

theorem commaSeparated_cons (row : List Token) (rows : List (List Token)) :
    Token.commaSeparated (row :: rows) =
      row ++ (rows.map (Token.ofKind .comma :: ·)).flatten := by
  induction rows generalizing row with
  | nil => simp [Token.commaSeparated]
  | cons next rows ih =>
    rw [Token.commaSeparated, List.intercalate_cons_cons, ← Token.commaSeparated, ih,
      List.map_cons, List.flatten_cons]
    simp

theorem separated_commaSeparated (rows : List (List Token)) :
    Separated rows (Token.commaSeparated rows) := by
  cases rows with
  | nil => exact .nil
  | cons row rows =>
    rw [commaSeparated_cons]
    exact .cons (afterCommas_of_rows rows)

/-- The tokens of things that are printed beside the trees they stand for. -/
theorem map_fst_pairs {α β γ : Type} (f : α → β) (g : α → γ) (xs : List α) :
    (xs.map fun x => (f x, g x)).map (·.1) = xs.map f := List.map_map

/-- The trees. -/
theorem map_snd_pairs {α β γ : Type} (f : α → β) (g : α → γ) (xs : List α) :
    (xs.map fun x => (f x, g x)).map (·.2) = xs.map g := List.map_map

/-- The kind of a name that is called. -/
theorem callKind {name : String} : Token.IsName name ∨ name = printName →
    (Token.ofName name).kind = .name ∨ (Token.ofName name).kind = .kwPrint := by
  rintro (hname | rfl)
  · exact Or.inl hname.1
  · exact Or.inr (by decide)

/-- A call is printed as a call if its arguments are printed as expressions. -/
theorem call_printed {name : String} {args : List Expr} : Token.IsName name ∨ name = printName →
    (∀ a ∈ args, Expression (some .equality) (a.tokens (some .equality)) a.bare) →
    Call (.ofName name :: Token.parenthesised (Token.commaSeparated
      (args.map (Expr.tokens (some .equality))))) (.call .nowhere name (args.map Expr.bare)) := by
  intro hname hargs
  rw [← map_fst_pairs (Expr.tokens (some .equality)) Expr.bare,
    ← map_snd_pairs (Expr.tokens (some .equality)) Expr.bare]
  exact .mk (callKind hname) ⟨rfl, rfl⟩ (separated_commaSeparated _)
    (List.forall_mem_map.mpr hargs)

theorem expression_printed {e : Expr} : e.Parsed → ∀ context,
    Expression context (e.tokens context) e.bare := by
  intro h
  induction h with
  | lit _ =>
    intro context
    rw [Expr.tokens, Expr.bare_lit]
    exact Expression.of_none (.number rfl) context
  | var hname =>
    intro context
    rw [Expr.tokens, Expr.bare_var]
    exact Expression.of_none (.name hname.1) context
  | binary l hop _ _ ihleft ihright =>
    intro context
    rw [Expr.tokens, Expr.bare_binary, l.level_of_holds hop]
    exact Expression.inContext (.binary (ihleft _) hop (ihright _)) context
  | call hname _ ih =>
    intro context
    rw [Expr.tokens, Expr.bare_call]
    exact (call_printed hname fun a ha => ih a ha _).expression.of_none context

/-! ## Statements -/

theorem beginCall_append {ts us : List Token} : Token.beginCall ts = true →
    Token.beginCall (ts ++ us) = true := by
  intro h
  match ts with
  | [] => cases h
  | [_] => cases h
  | _ :: _ :: _ => exact h

/-- An expression before something that is no parenthesis and no equals sign begins like a call if
    it begins like anything that is reserved. -/
theorem beginCall_of_reserved {o : Option Level} {ts : List Token} {e : Expr} :
    Expression o ts e → ∀ rest : List Token,
    (∀ u ∈ rest.head?, u.kind ≠ .lparen ∧ u.kind ≠ .assign) → Reserved (ts ++ rest) →
    Token.beginCall ts = true := by
  -- a phrase that begins with neither a name nor `print` is not reserved
  have hother : ∀ {t : Token} {us : List Token}, t.kind ≠ .name → t.kind ≠ .kwPrint →
      ¬ Reserved (t :: us) := by
    intro t us hname hprint h
    cases us with
    | nil => exact hprint h
    | cons u us =>
      rcases h with h | ⟨h, _⟩
      · exact hprint h
      · exact hname h
  intro h
  induction h with
  | number ht =>
    intro rest _ hreserved
    exact absurd hreserved (hother (by rw [ht]; decide) (by rw [ht]; decide))
  | @name t ht =>
    intro rest hrest hreserved
    cases rest with
    | nil =>
      have hprint : t.kind = .kwPrint := hreserved
      rw [ht] at hprint
      cases hprint
    | cons u us =>
      obtain ⟨hlparen, hassign⟩ := hrest u rfl
      rcases hreserved with hprint | ⟨_, hu | hu⟩
      · rw [ht] at hprint
        cases hprint
      · exact absurd hu hlparen
      · exact absurd hu hassign
  | call ht hp =>
    intro rest _ _
    rcases ht with ht | ht
    · simp [Token.beginCall, ht, hp.1]
    · simp [Token.beginCall, ht, hp.1]
  | parens hp =>
    intro rest _ hreserved
    exact absurd hreserved (hother (by rw [hp.1]; decide) (by rw [hp.1]; decide))
  | minus ht =>
    intro rest _ hreserved
    exact absurd hreserved (hother (by rw [ht]; decide) (by rw [ht]; decide))
  | operand _ ih => exact ih
  | @binary l ts a op us b _ hop _ ih =>
    intro rest _ hreserved
    -- behind the left operand stands an operator, which is no parenthesis and no equals sign
    refine beginCall_append (ih (op :: us ++ rest) ?_ (by rwa [List.append_assoc] at hreserved))
    intro u hu
    cases hu
    constructor
    · intro hkind
      rw [hkind] at hop
      cases l <;> exact absurd hop (by decide)
    · intro hkind
      rw [hkind] at hop
      cases l <;> exact absurd hop (by decide)

theorem standing_printed {e : Expr} : e.Parsed →
    Statement (e.standing ++ [.ofKind .semi]) (.expr .nowhere e.bare) := by
  intro h
  have hexpr := expression_printed h (some .equality)
  by_cases hcall : e.isCall = true
  · have hstanding : e.standing = e.tokens (some .equality) := by simp [Expr.standing, hcall]
    rw [hstanding]
    cases h with
    | call hname hargs =>
      have hcalled := call_printed hname fun a ha => expression_printed (hargs a ha) _
      rw [Expr.tokens, Expr.bare_call]
      exact .call hcalled rfl
    | _ => cases hcall
  by_cases hbegin : Token.beginCall (e.tokens (some .equality)) = true
  · have hstanding : e.standing = Token.parenthesised (e.tokens (some .equality)) := by
      simp [Expr.standing, hcall, hbegin]
    rw [hstanding]
    refine .expr (Expression.of_none (.parens ⟨rfl, rfl⟩ hexpr) _) rfl ?_
    -- the opening parenthesis is no reserved beginning
    obtain ⟨t, ts, hts, _⟩ := hexpr.first
    rw [hts]
    rintro (hkind | ⟨hkind, _⟩) <;> cases hkind
  · have hstanding : e.standing = e.tokens (some .equality) := by
      simp [Expr.standing, hbegin]
    rw [hstanding]
    refine .expr hexpr rfl ?_
    intro hreserved
    refine hbegin (beginCall_of_reserved hexpr [.ofKind .semi] ?_ hreserved)
    intro u hu
    cases hu
    decide

/-- A condition in parentheses behind its keyword. -/
theorem head_printed {keyword : Token.Kind} {e : Expr} : e.Parsed →
    Head keyword (.ofKind keyword :: Token.parenthesised (e.tokens (some .equality))) e.bare := by
  intro h
  exact .mk rfl ⟨rfl, rfl⟩ (expression_printed h _)

/-- By induction on the invariant; a statement in a block is printed like any other. -/
theorem statement_printed {s : Stmt} : s.Parsed → Statement s.tokens s.bare := by
  intro h
  induction h with
  | @block span body _ ih =>
    rw [Stmt.tokens, Stmt.bare_block, ← map_fst_pairs Stmt.tokens Stmt.bare,
      ← map_snd_pairs Stmt.tokens Stmt.bare]
    exact .block rfl rfl (List.forall_mem_map.mpr ih)
  | expr he =>
    rw [Stmt.tokens, Stmt.bare_expr]
    exact standing_printed he
  | assign hname he =>
    rw [Stmt.tokens, Stmt.bare_assign]
    exact .assign hname.1 rfl (expression_printed he _) rfl
  | ifThen hcond _ ih =>
    rw [Stmt.tokens, Stmt.bare_ifElse]
    exact .ifThen (head_printed hcond) ih
  | ifElse hcond _ hdangles _ ihyes ihno =>
    rw [Stmt.tokens, Stmt.bare_ifElse]
    rw [← Parse.dangles_bare] at hdangles
    exact .ifElse (head_printed hcond) ihyes hdangles rfl ihno
  | loop hcond _ ih =>
    rw [Stmt.tokens, Stmt.bare_loop]
    exact .loop (head_printed hcond) ih
  | retNone =>
    rw [Stmt.tokens, Stmt.bare_ret]
    exact .retNone rfl rfl
  | ret he =>
    rw [Stmt.tokens, Stmt.bare_ret]
    exact .ret rfl (expression_printed he _) rfl

theorem definition_printed {f : FunctionDef} : f.Parsed → Definition f.tokens f.bare := by
  rintro ⟨hname, hparams, span, body, hblock, hbody⟩
  have hstatement := statement_printed (@Stmt.Parsed.block span body hbody)
  rw [Stmt.bare_block] at hstatement
  have hrows : (f.params.map Token.ofName).map ([·]) =
      f.params.map fun param => [.ofName param] := by
    rw [List.map_map]
    rfl
  have hlexemes : (f.params.map Token.ofName).map (·.lexeme) = f.params := by
    rw [List.map_map]
    exact List.map_id _
  have hkinds : ∀ t ∈ f.params.map Token.ofName, t.kind = .name :=
    List.forall_mem_map.mpr fun param hp => (hparams param hp).1
  have hdefinition : Definition
      (.ofKind .kwFunc :: .ofName f.name :: .ofKind .lparen ::
        Token.commaSeparated ((f.params.map Token.ofName).map ([·]))
        ++ .ofKind .rparen :: (Stmt.block span body).tokens)
      ⟨.nowhere, f.name, (f.params.map Token.ofName).map (·.lexeme),
        .block .nowhere (body.map Stmt.bare)⟩ :=
    .mk rfl hname.1 ⟨rfl, rfl⟩ hkinds (separated_commaSeparated _) hstatement
  rw [hrows, hlexemes] at hdefinition
  rw [FunctionDef.tokens, FunctionDef.bare, hblock, Stmt.bare_block, Token.parenthesised]
  simp only [List.cons_append, List.append_assoc, List.nil_append] at hdefinition ⊢
  exact hdefinition

/-- The definitions and the statements of a program, as they are printed. -/
def printedItems (p : MiniLang.Program) : List (List Token × Item) :=
  p.functions.map (fun f => (f.tokens, .definition f.bare))
    ++ p.body.inside.map fun s => (s.tokens, .statement s.bare)

theorem printedItems_tokens (p : MiniLang.Program) :
    ((printedItems p).map (·.1)).flatten = p.tokens := by
  rw [printedItems, List.map_append, List.map_map, List.map_map, List.flatten_append]
  rfl

theorem printedItems_items (p : MiniLang.Program) : (printedItems p).map (·.2) =
    (p.functions.map FunctionDef.bare).map .definition
      ++ (p.body.inside.map Stmt.bare).map .statement := by
  rw [printedItems, List.map_append, List.map_map, List.map_map, List.map_map, List.map_map]
  rfl

theorem definitions_of_parts (functions : List FunctionDef) (body : List Stmt) :
    Item.definitions (functions.map .definition ++ body.map .statement) = functions := by
  have hnone : Item.definitions (body.map .statement) = [] := by
    induction body with
    | nil => rfl
    | cons s body ih => exact ih
  rw [Item.definitions] at hnone
  rw [Item.definitions, List.filterMap_append, hnone, List.append_nil, List.filterMap_map]
  exact List.filterMap_some

theorem statements_of_parts (functions : List FunctionDef) (body : List Stmt) :
    Item.statements (functions.map .definition ++ body.map .statement) = body := by
  have hnone : Item.statements (functions.map .definition) = [] := by
    induction functions with
    | nil => rfl
    | cons f functions ih => exact ih
  rw [Item.statements] at hnone
  rw [Item.statements, List.filterMap_append, hnone, List.nil_append, List.filterMap_map]
  exact List.filterMap_some

theorem program_printed {p : MiniLang.Program} {stop : Token} : p.Parsed → stop.kind = .eof →
    Program (p.tokens ++ [stop]) p.bare := by
  rintro ⟨hfunctions, span, body, hblock, hbody⟩ hstop
  have hinside : p.body.inside = body := by rw [hblock, Stmt.inside]
  have hbare : p.bare =
      ⟨.nowhere, p.functions.map FunctionDef.bare, .block .nowhere (body.map Stmt.bare)⟩ := by
    rw [MiniLang.Program.bare, hblock, Stmt.bare_block]
  have hitems : ∀ i ∈ printedItems p, Top i.1 i.2 := by
    rw [printedItems, hinside]
    refine List.forall_mem_append.mpr ⟨?_, ?_⟩
    · exact List.forall_mem_map.mpr fun f hf => .definition (definition_printed (hfunctions f hf))
    · exact List.forall_mem_map.mpr fun s hs => .statement (statement_printed (hbody s hs))
  have hprogram := Program.mk hitems hstop
  rw [printedItems_tokens, printedItems_items, definitions_of_parts, statements_of_parts,
    hinside] at hprogram
  rw [hbare]
  exact hprogram

end Grammar

/-! ## Words -/

namespace Token

/-- Tokens that can be read. -/
def Readables (ts : List Token) : Prop := ∀ t ∈ ts, Readable t

theorem readables_nil : Readables [] := List.forall_mem_nil _

theorem readables_cons {t : Token} {ts : List Token} : Readable t → Readables ts →
    Readables (t :: ts) := fun ht hts => List.forall_mem_cons.mpr ⟨ht, hts⟩

theorem readables_append {ts us : List Token} : Readables ts → Readables us →
    Readables (ts ++ us) := fun hts hus => List.forall_mem_append.mpr ⟨hts, hus⟩

theorem readables_flatten {rows : List (List Token)} : (∀ row ∈ rows, Readables row) →
    Readables rows.flatten := by
  intro h t ht
  obtain ⟨row, hrow, ht⟩ := List.mem_flatten.mp ht
  exact h row hrow t ht

theorem readables_parenthesised {ts : List Token} : Readables ts →
    Readables (parenthesised ts) := by
  intro h
  refine readables_append (readables_cons (readable_ofKind .lparen (by decide)) h) ?_
  exact readables_cons (readable_ofKind .rparen (by decide)) readables_nil

theorem readables_commaSeparated {rows : List (List Token)} : (∀ row ∈ rows, Readables row) →
    Readables (commaSeparated rows) := by
  intro h
  cases rows with
  | nil => exact readables_nil
  | cons row rows =>
    obtain ⟨hrow, hrows⟩ := List.forall_mem_cons.mp h
    rw [Grammar.commaSeparated_cons]
    refine readables_append hrow (readables_flatten (List.forall_mem_map.mpr ?_))
    intro row hmem
    exact readables_cons (readable_ofKind .comma (by decide)) (hrows row hmem)

theorem readables_tokens {e : Expr} : e.Parsed → ∀ context, Readables (e.tokens context) := by
  intro h
  induction h with
  | lit hv =>
    intro context
    rw [Expr.tokens]
    exact readables_cons (readable_ofValue hv) readables_nil
  | var hname =>
    intro context
    rw [Expr.tokens]
    exact readables_cons (readable_ofName (Or.inl hname)) readables_nil
  | @binary span left right op l hop _ _ ihleft ihright =>
    intro context
    have hop' : op ∉ [Kind.eof, .int, .name] := by
      revert hop
      cases l <;> cases op <;> decide
    have hrow := readables_append (ihleft (some op.level))
      (readables_cons (readable_ofKind op hop') (ihright op.level.tighter?))
    rw [Expr.tokens]
    split
    · exact hrow
    · exact readables_parenthesised hrow
  | call hname _ ih =>
    intro context
    rw [Expr.tokens]
    refine readables_cons (readable_ofName hname) (readables_parenthesised ?_)
    exact readables_commaSeparated (List.forall_mem_map.mpr fun a ha => ih a ha _)

theorem readables_standing {e : Expr} : e.Parsed → Readables e.standing := by
  intro h
  unfold Expr.standing
  dsimp only
  split
  · exact readables_parenthesised (readables_tokens h _)
  · exact readables_tokens h _

/-- Tokens with a semicolon behind them. -/
theorem readables_closed {ts : List Token} : Readables ts → Readables (ts ++ [ofKind .semi]) :=
  fun h => readables_append h (readables_cons (readable_ofKind .semi (by decide)) readables_nil)

/-- A keyword and a condition in parentheses. -/
theorem readables_head {keyword : Kind} {e : Expr} : keyword ∉ [Kind.eof, .int, .name] →
    e.Parsed → Readables (ofKind keyword :: parenthesised (e.tokens (some .equality))) :=
  fun hkeyword h => readables_cons (readable_ofKind keyword hkeyword)
    (readables_parenthesised (readables_tokens h _))

theorem readables_statement {s : Stmt} : s.Parsed → Readables s.tokens := by
  intro h
  induction h with
  | block _ ih =>
    rw [Stmt.tokens]
    refine readables_append (readables_cons (readable_ofKind .lbrace (by decide)) ?_)
      (readables_cons (readable_ofKind .rbrace (by decide)) readables_nil)
    exact readables_flatten (List.forall_mem_map.mpr ih)
  | expr he =>
    rw [Stmt.tokens]
    exact readables_closed (readables_standing he)
  | assign hname he =>
    rw [Stmt.tokens]
    refine readables_closed (readables_cons (readable_ofName (Or.inl hname)) ?_)
    exact readables_cons (readable_ofKind .assign (by decide)) (readables_tokens he _)
  | ifThen hcond _ ih =>
    rw [Stmt.tokens]
    exact readables_append (readables_head (by decide) hcond) ih
  | ifElse hcond _ _ _ ihyes ihno =>
    rw [Stmt.tokens]
    refine readables_append (readables_append (readables_head (by decide) hcond) ihyes) ?_
    exact readables_cons (readable_ofKind .kwElse (by decide)) ihno
  | loop hcond _ ih =>
    rw [Stmt.tokens]
    exact readables_append (readables_head (by decide) hcond) ih
  | retNone =>
    rw [Stmt.tokens]
    exact readables_cons (readable_ofKind .kwReturn (by decide))
      (readables_cons (readable_ofKind .semi (by decide)) readables_nil)
  | ret he =>
    rw [Stmt.tokens]
    exact readables_closed (readables_cons (readable_ofKind .kwReturn (by decide))
      (readables_tokens he _))

theorem readables_definition {f : FunctionDef} : f.Parsed → Readables f.tokens := by
  rintro ⟨hname, hparams, span, body, hblock, hbody⟩
  rw [FunctionDef.tokens, hblock]
  refine readables_append (readables_cons (readable_ofKind .kwFunc (by decide)) ?_)
    (readables_statement (.block hbody))
  refine readables_cons (readable_ofName (Or.inl hname)) (readables_parenthesised ?_)
  refine readables_commaSeparated (List.forall_mem_map.mpr fun param hp => ?_)
  exact readables_cons (readable_ofName (Or.inl (hparams param hp))) readables_nil

theorem readables_program {p : Program} : p.Parsed → Readables p.tokens := by
  rintro ⟨hfunctions, span, body, hblock, hbody⟩
  rw [Program.tokens, hblock, Stmt.inside]
  refine readables_append (readables_flatten (List.forall_mem_map.mpr ?_))
    (readables_flatten (List.forall_mem_map.mpr ?_))
  · exact fun f hf => readables_definition (hfunctions f hf)
  · exact fun s hs => readables_statement (hbody s hs)

end Token

end MiniLang
