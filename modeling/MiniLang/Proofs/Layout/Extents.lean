/-
  The span of a statement is the statement, but for the parentheses before an expression.

  1. **Parentheses** — in every phrase as many parentheses are closed as opened, so what is left of
     one without an opening parenthesis is no phrase any more.
  2. **Texts** — tokens alike are the same program up to places, so the text that an item covers is
     a program of nothing but the item if the tokens that it covers are.
  3. **Programs** — every statement and definition begins with the first of its tokens and ends with
     the last one, and its text, lexed and parsed alone, is that statement or definition again; but
     an expression as a statement begins behind the parentheses that it opens with, and then its
     text is no program at all.
-/
import MiniLang.Proofs.Layout.Alone
import MiniLang.Proofs.Lexing.Slices
import MiniLang.Proofs.Parsing.Interleaving

namespace MiniLang

open Parse (Item ReadsAlone)

/-! ## Parentheses -/

/-- How many more parentheses are open behind a token of the kind than before it. -/
def Token.Kind.weight : Token.Kind → Int
  | .lparen => 1
  | .rparen => -1
  | _ => 0

/-- How many parentheses the tokens open and do not close. -/
def Token.excess (ts : List Token) : Int := (ts.map (·.kind.weight)).sum

namespace Token

variable {t : Token} {ts us : List Token}

theorem excess_cons (t : Token) (ts : List Token) :
    excess (t :: ts) = t.kind.weight + excess ts := by
  rw [excess, List.map_cons, List.sum_cons]
  rfl

theorem excess_append (ts us : List Token) : excess (ts ++ us) = excess ts + excess us := by
  rw [excess, List.map_append, List.sum_append]
  rfl

theorem excess_singleton (t : Token) : excess [t] = t.kind.weight := by
  rw [excess_cons]
  exact Int.add_zero _

theorem Alike.excess_eq (h : Alike ts us) : excess ts = excess us := by
  have hkinds : ts.map (·.kind) = us.map (·.kind) := by
    have hmap := congrArg (List.map Token.kind) h
    rwa [List.map_map, List.map_map] at hmap
  have hweights := congrArg (List.map Kind.weight) hkinds
  rw [List.map_map, List.map_map] at hweights
  exact congrArg List.sum hweights

/-- Behind opening parentheses there is less than with them. -/
theorem excess_dropWhile_opens : ∀ ts : List Token, excess (ts.dropWhile opens) ≤ excess ts := by
  intro ts
  induction ts with
  | nil => exact Int.le_refl _
  | cons t ts ih =>
    cases ht : t.opens with
    | false => rw [List.dropWhile_cons_of_neg (by rw [ht]; decide)]
    | true =>
      have hkind : t.kind = .lparen := beq_iff_eq.mp ht
      have hweight : t.kind.weight = 1 := by rw [hkind]; rfl
      rw [List.dropWhile_cons_of_pos ht, excess_cons]
      omega

end Token

namespace Grammar

open Token (excess excess_cons excess_append excess_singleton)

/-- As many parentheses are closed as opened. -/
def Balanced (ts : List Token) : Prop := excess ts = 0

theorem weight_of_kind {t : Token} {k : Token.Kind} (h : t.kind = k)
    (hk : k.weight = 0 := by rfl) : t.kind.weight = 0 := h ▸ hk

theorem balanced_cons {t : Token} {ts : List Token} (ht : t.kind.weight = 0) (hts : Balanced ts) :
    Balanced (t :: ts) := by
  rw [Balanced, excess_cons, ht, hts]
  rfl

theorem balanced_append {ts us : List Token} (hts : Balanced ts) (hus : Balanced us) :
    Balanced (ts ++ us) := by
  rw [Balanced, excess_append, hts, hus]
  rfl

theorem balanced_concat {t : Token} {ts : List Token} (hts : Balanced ts)
    (ht : t.kind.weight = 0) : Balanced (ts ++ [t]) := balanced_append hts (balanced_cons ht rfl)

theorem balanced_flatten {ps : List (List Token)} (h : ∀ p ∈ ps, Balanced p) :
    Balanced ps.flatten := by
  induction ps with
  | nil => rfl
  | cons p ps ih =>
    obtain ⟨hp, hps⟩ := List.forall_mem_cons.mp h
    exact balanced_append hp (ih hps)

theorem Parentheses.balanced {l r : Token} {ts : List Token} (h : Parentheses l r)
    (hts : Balanced ts) : Balanced (l :: ts ++ [r]) := by
  rw [Balanced, excess_append, excess_cons, excess_singleton, h.1, h.2, hts]
  rfl

theorem AfterCommas.balanced {ps : List (List Token)} {ts : List Token} (h : AfterCommas ps ts)
    (hps : ∀ p ∈ ps, Balanced p) : Balanced ts := by
  induction h with
  | nil => rfl
  | cons hcomma _ ih =>
    obtain ⟨hp, hps⟩ := List.forall_mem_cons.mp hps
    exact balanced_append (balanced_cons (weight_of_kind hcomma) hp) (ih hps)

theorem Separated.balanced {ps : List (List Token)} {ts : List Token} (h : Separated ps ts)
    (hps : ∀ p ∈ ps, Balanced p) : Balanced ts := by
  cases h with
  | nil => rfl
  | cons h =>
    obtain ⟨hp, hps⟩ := List.forall_mem_cons.mp hps
    exact balanced_append hp (h.balanced hps)

theorem Expression.balanced {o : Option Parse.Level} {ts : List Token} {e : Expr}
    (h : Expression o ts e) : Balanced ts := by
  induction h with
  | number ht => exact balanced_cons (weight_of_kind ht) rfl
  | name ht => exact balanced_cons (weight_of_kind ht) rfl
  | call ht hp hsep _ ih =>
    refine balanced_cons ?_ (hp.balanced (hsep.balanced (List.forall_mem_map.mpr ih)))
    rcases ht with ht | ht
    · exact weight_of_kind ht
    · exact weight_of_kind ht
  | parens hp _ ih => exact hp.balanced ih
  | minus ht _ ih => exact balanced_cons (weight_of_kind ht) ih
  | operand _ ih => exact ih
  | @binary l _ _ op _ _ _ hop _ iha ihb =>
    have hweight : op.kind.weight = 0 := by
      have hall : ∀ l : Parse.Level, ∀ k ∈ l.operators, k.weight = 0 := by
        intro l
        cases l <;> decide
      exact hall l op.kind (List.contains_iff_mem.mp hop)
    exact balanced_append iha (balanced_cons hweight ihb)

theorem Head.balanced {k : Token.Kind} {ts : List Token} {c : Expr} (h : Head k ts c)
    (hk : k.weight = 0) : Balanced ts := by
  obtain ⟨ht, hp, hc⟩ := h
  exact balanced_cons (weight_of_kind ht hk) (hp.balanced hc.balanced)

theorem Statement.balanced {ts : List Token} {a : Stmt} (h : Statement ts a) : Balanced ts := by
  induction h with
  | retNone hk hs =>
    exact balanced_cons (weight_of_kind hk) (balanced_cons (weight_of_kind hs) rfl)
  | ret hk he hs =>
    exact balanced_concat (balanced_cons (weight_of_kind hk) he.balanced) (weight_of_kind hs)
  | ifThen hhead _ ih => exact balanced_append (hhead.balanced rfl) ih
  | ifElse hhead _ _ hk _ ihyes ihno =>
    exact balanced_append (balanced_append (hhead.balanced rfl) ihyes)
      (balanced_cons (weight_of_kind hk) ihno)
  | loop hhead _ ih => exact balanced_append (hhead.balanced rfl) ih
  | block hl hr _ ih =>
    have hbody := balanced_flatten (List.forall_mem_map.mpr ih)
    exact balanced_concat (balanced_cons (weight_of_kind hl) hbody) (weight_of_kind hr)
  | call hcall hs => exact balanced_concat hcall.expression.balanced (weight_of_kind hs)
  | assign ht heq he hs =>
    refine balanced_concat ?_ (weight_of_kind hs)
    exact balanced_cons (weight_of_kind ht) (balanced_cons (weight_of_kind heq) he.balanced)
  | expr he hs _ => exact balanced_concat he.balanced (weight_of_kind hs)

theorem Top.balanced {ts : List Token} {i : Item} (h : Top ts i) : Balanced ts := by
  cases h with
  | statement hs => exact hs.balanced
  | definition hf =>
    obtain ⟨hk, hname, hp, hparams, hsep, hbody⟩ := hf
    have hrow := hsep.balanced (List.forall_mem_map.mpr fun p hp' =>
      balanced_cons (weight_of_kind (hparams p hp')) rfl)
    have hparens := balanced_append (hp.balanced hrow) hbody.balanced
    rw [List.append_assoc] at hparens
    exact balanced_cons (weight_of_kind hk) (balanced_cons (weight_of_kind hname) hparens)

theorem Program.balanced {ts : List Token} {p : MiniLang.Program} (h : Program ts p) :
    Balanced ts := by
  obtain ⟨hitems, hstop⟩ := h
  exact balanced_concat
    (balanced_flatten (List.forall_mem_map.mpr fun i hi => (hitems i hi).balanced))
    (weight_of_kind hstop)

end Grammar

/-! ## Texts -/

/-- Tokens alike are the same program up to places. -/
theorem ofTokens_of_alike {frames : Nat} {ts us : List Token} {stop : Token} {p : Program}
    (hstop : stop.kind = .eof) (h : Token.Alike (ts ++ [stop]) us)
    (hp : Program.ofTokens frames (ts ++ [stop]) = .ok p) :
    ∃ q, Program.ofTokens frames us = .ok q ∧ q.bare = p.bare := by
  obtain ⟨us, vs, rfl, hus, hvs⟩ := h.append_left
  obtain ⟨stop', rfl, hbare⟩ := hvs.singleton_left
  have hstop' : stop'.kind = .eof := (congrArg Token.kind hbare).trans hstop
  -- in the layout that has one place only, both are the same tokens
  have hleft : Program.ofTokens frames ((ts ++ [stop]).map (Token.placed .flat)) = _ :=
    ofTokens_placed .flat frames hstop
  have hright : Program.ofTokens frames ((us ++ [stop']).map (Token.placed .flat)) = _ :=
    ofTokens_placed .flat frames hstop'
  have hsame : (ts ++ [stop]).map (Token.placed .flat) =
      (us ++ [stop']).map (Token.placed .flat) := h
  rw [hsame, hright, hp] at hleft
  cases hq : Program.ofTokens frames (us ++ [stop']) with
  | error halt =>
    rw [hq] at hleft
    cases hleft
  | ok q =>
    rw [hq] at hleft
    refine ⟨q, rfl, ?_⟩
    have hplaced : q.placed .flat = p.placed .flat := Except.ok.inj hleft
    rwa [Program.placed_flat, Program.placed_flat] at hplaced

/-- The text, lexed and parsed alone, is the program up to places. -/
def Program.IsText (frames : Nat) (cs : List Char) (p : Program) : Prop :=
  ∃ tokens q, Token.ofSource (String.ofList cs) = .ok tokens ∧
    Program.ofTokens frames tokens = .ok q ∧ q.bare = p.bare

/-- The text is lexed as tokens, but they are no program. -/
def NoProgram (cs : List Char) : Prop :=
  ∃ tokens, Token.ofSource (String.ofList cs) = .ok tokens ∧
    ∀ frames q, Program.ofTokens frames tokens ≠ .ok q

/-- What the span of an item covers, if these are its tokens. -/
structure Parse.Item.Extent (frames : Nat) (source : String) (i : Item) (first : Token)
    (rest : List Token) : Prop where
  /-- The tokens are a program of nothing but the item, with every span where it was. -/
  alone : ∀ stop : Token, stop.kind = .eof →
    Program.ofTokens frames (first :: rest ++ [stop]) =
      .ok (i.alone (first.span.through stop.span))
  /-- The span runs from the first token to the last one, and its text is the item again. -/
  plain : first.kind ≠ .lparen → i.span.RunsOver (first :: rest) ∧
    (i.alone .nowhere).IsText frames (Token.slice i.span source.toList)
  /-- An expression that opens with parentheses: the span begins behind them. -/
  opened : first.kind = .lparen → (∃ span e, i = .statement (.expr span e)) ∧
    i.span.RunsOver ((first :: rest).dropWhile Token.opens) ∧
    NoProgram (Token.slice i.span source.toList)

theorem Parse.Item.bare_alone (i : Item) (span : Span) :
    (i.alone span).bare = (i.alone .nowhere).bare := by
  rw [alone, alone, Program.bare, Program.bare, Stmt.bare_block, Stmt.bare_block]

/-- Only an expression as a statement opens with a parenthesis. -/
theorem Grammar.Statement.expr_of_opens {ts rest : List Token} {first : Token} {a : Stmt}
    (h : Statement ts a) (hts : ts = first :: rest) (hfirst : first.kind = .lparen) :
    ∃ e, a = .expr .nowhere e := by
  cases h with
  | call | expr => exact ⟨_, rfl⟩
  | ifThen hhead | ifElse hhead | loop hhead =>
    obtain ⟨t, us, rfl, ht⟩ := hhead.first
    cases hts
    rw [hfirst] at ht
    cases ht
  | retNone hk | ret hk | block hk | assign hk =>
    cases hts
    rw [hfirst] at hk
    cases hk

theorem Parse.Item.expr_of_opens {i : Item} {first : Token} {rest : List Token}
    (h : Grammar.Top (first :: rest) i.bare) (hfirst : first.kind = .lparen) :
    ∃ span e, i = .statement (.expr span e) := by
  cases i with
  | definition f =>
    cases h with
    | definition hf =>
      generalize f.bare = g at hf
      obtain ⟨hk, -⟩ := hf
      rw [hfirst] at hk
      cases hk
  | statement a =>
    cases h with
    | statement ha =>
      obtain ⟨e, he⟩ := ha.expr_of_opens rfl hfirst
      cases a with
      | expr span e => exact ⟨span, e, rfl⟩
      | _ => simp at he

/-! ## Programs -/

section

variable {source : String} {tokens : List Token} {frames : Nat} {p : Program}

/-- Tokens in a row that hold no end marker stand before the one at the end. -/
theorem Token.EndsOnce.exists_around {ts : List Token} (h : Token.EndsOnce tokens)
    (hts : ts <:+: tokens) (hne : ts ≠ []) (hunended : Grammar.Unended ts) :
    ∃ before behind stop, tokens = before ++ ts ++ behind ++ [stop] := by
  obtain ⟨body, stop, rfl, -, hstop⟩ := h
  obtain ⟨before, behind, hsplit⟩ := hts
  rcases List.eq_nil_or_concat' behind with rfl | ⟨behind, last, rfl⟩
  · -- otherwise the end marker would be the last of them
    obtain ⟨init, last, rfl⟩ := (List.eq_nil_or_concat' ts).resolve_left hne
    rw [List.append_nil, ← List.append_assoc] at hsplit
    have hlast := List.singleton_inj.mp (List.append_inj' hsplit rfl).2
    exact absurd (hlast ▸ hstop) (hunended last (by simp))
  · exact ⟨before, behind, last, by rw [← hsplit, List.append_assoc _ behind]⟩

/-- The text that an item covers is lexed as its tokens without the parentheses before them. -/
theorem Parse.Item.exists_slice (htokens : Token.ofSource source = .ok tokens) {i : Item}
    {ts : List Token} (hts : ts <:+: tokens) (hunended : Grammar.Unended ts)
    (hspan : i.span.RunsOver (ts.dropWhile Token.opens)) :
    ∃ us stop, Token.ofSource (String.ofList (Token.slice i.span source.toList)) =
      .ok (us ++ [.endAt stop]) ∧ Token.Alike (ts.dropWhile Token.opens) us := by
  have hne : ts ≠ [] := by
    rintro rfl
    exact hspan.ne_nil rfl
  obtain ⟨before, behind, stop, rfl⟩ :=
    (Token.endsOnce_of_ofSource htokens).exists_around hts hne hunended
  obtain ⟨first, last, hfirst, hlast, hspan⟩ := hspan
  rw [← List.takeWhile_append_dropWhile (p := Token.opens) (l := ts), ← List.append_assoc]
    at htokens
  rw [hspan]
  exact Token.exists_slice htokens hfirst hlast

theorem Parse.Item.extent_of_alone (htokens : Token.ofSource source = .ok tokens) {i : Item}
    {ts : List Token} (hts : ts <:+: tokens) (halone : ReadsAlone (Parse.item frames) ts i) :
    ∃ first rest, ts = first :: rest ∧ i.Extent frames source first rest := by
  have hphrase := halone.phrase (Parse.item_reads frames)
  obtain ⟨-, -, hspan, -⟩ := halone.phrase
    (Parse.delivers_of_detaches fun _ => Parse.item_detaches frames)
  obtain ⟨us, stop, hus, halike⟩ := exists_slice htokens hts hphrase.unended hspan
  obtain ⟨first, rest, rfl, -⟩ := hphrase.first
  refine ⟨first, rest, rfl, fun stop hstop => Program.ofTokens_alone halone rfl hstop, ?_, ?_⟩
  · intro hfirst
    rw [Token.dropWhile_opens hfirst] at hspan halike
    have hends : Token.Alike [.endAt .origin] [.endAt stop] := rfl
    obtain ⟨q, hq, hbare⟩ := ofTokens_of_alike rfl (halike.append hends)
      (Program.ofTokens_alone halone rfl rfl)
    exact ⟨hspan, _, q, hus, hq, hbare.trans (i.bare_alone _)⟩
  · intro hfirst
    refine ⟨expr_of_opens hphrase hfirst, hspan, _, hus, fun frames q hq => ?_⟩
    -- one of the parentheses that the text closes is opened before it
    have hprogram := (program_of_ofTokens (Token.endsOnce_of_ofSource hus) hq).balanced
    have hbalanced : Token.excess (first :: rest) = 0 := hphrase.balanced
    have hopens : first.opens = true := beq_iff_eq.mpr hfirst
    rw [List.dropWhile_cons_of_pos hopens] at halike
    have hless := Token.excess_dropWhile_opens rest
    rw [halike.excess_eq] at hless
    rw [Grammar.Balanced, Token.excess_append, Token.excess_singleton] at hprogram
    rw [Token.excess_cons, hfirst] at hbalanced
    simp only [Token.Kind.weight, Token.endAt] at hprogram hbalanced
    omega

/-- A statement of a program is its body or stands in it. -/
theorem Program.holds_of_hasNode (hp : ofTokens frames tokens = .ok p) {a : Stmt}
    (ha : p.HasNode (.stmt a)) : a = p.body ∨ p.Holds (.statement a) := by
  generalize hn : Node.stmt a = n at ha
  induction ha generalizing a with
  | body => exact .inl (Node.stmt.inj hn)
  | @function f hf =>
    cases hn
    exact .inr (.child (.definition hf) .body)
  | @child n _ _ hchild ih =>
    subst hn
    cases n with
    | expr e => cases hchild
    | stmt b =>
      rcases ih rfl with rfl | hb
      · obtain ⟨parts, -, -, hbody⟩ := exists_parts hp
        rw [hbody] at hchild
        cases hchild with
        | member hs => exact .inr (.top (by rw [hbody]; exact hs))
      · exact .inr (.child hb (.inside hchild))

/-- The text that a program covers is the program again. -/
theorem Program.isText (htokens : Token.ofSource source = .ok tokens)
    (hp : ofTokens frames tokens = .ok p) :
    p.IsText frames (Token.slice p.span source.toList) := by
  obtain ⟨parts, hlaid⟩ := exists_laidOver (Token.endsOnce_of_ofSource htokens) hp
  obtain ⟨body, stop, rfl, -⟩ := Token.fromSource_of_ofSource htokens
  obtain ⟨first, last, hfirst, hlast, hspan⟩ := hlaid.runsOver
  obtain rfl : Token.endAt stop = last := by
    rw [List.getLast?_concat] at hlast
    exact Option.some.inj hlast
  obtain ⟨us, stop', hus, halike⟩ := Token.exists_slice_to_end htokens hfirst
  have hends : Token.Alike [.endAt stop] [.endAt stop'] := rfl
  obtain ⟨q, hq, hbare⟩ := ofTokens_of_alike rfl (halike.append hends) hp
  rw [hspan]
  exact ⟨_, q, hus, hq, hbare⟩

end

/-- **The span of a statement is the statement**, but for parentheses before an expression.  In
    whatever source a program is parsed from, each of its statements and definitions, at any depth,
    has tokens that are a program of nothing else.  If they begin with no opening parenthesis, its
    span runs from the first of them to the last one, and the text that it covers, lexed and parsed
    alone, is the item again up to places.  If they do, the item is an expression as a statement, its
    span begins behind these parentheses, and the text that it covers is no program.  The body of
    the program is no statement with tokens of its own: it covers what the program does. -/
theorem spans_are_texts {source : String} {tokens : List Token} {frames : Nat} {p : Program}
    (htokens : Token.ofSource source = .ok tokens) (hp : Program.ofTokens frames tokens = .ok p) :
    (∀ i, p.Holds i → ∃ first rest, first :: rest <:+: tokens ∧
      i.Extent frames source first rest) ∧
    (∀ a, p.HasNode (.stmt a) → a = p.body ∨ p.Holds (.statement a)) ∧
    p.body.span = p.span ∧ p.IsText frames (Token.slice p.span source.toList) := by
  refine ⟨fun i hi => ?_, fun a ha => p.holds_of_hasNode hp ha, ?_, p.isText htokens hp⟩
  · obtain ⟨ts, hts, halone⟩ := hi.alone hp
    obtain ⟨first, rest, rfl, hextent⟩ := Item.extent_of_alone htokens hts halone
    exact ⟨first, rest, hts, hextent⟩
  · obtain ⟨parts, -, -, hbody⟩ := Program.exists_parts hp
    rw [hbody]
    rfl

/-- An expression with a parenthesis before it, and other statements with some inside. -/
def unwrapped : String := "func f(a)\x7breturn (a);\x7d (1) + 2; if (x) f((3)); else (y);"

theorem unwrapped_texts : ∃ tokens p,
    Token.ofSource unwrapped = .ok tokens ∧ Program.ofTokens 80 tokens = .ok p ∧
    p.body.inside.map (fun a => String.ofList (Token.slice a.span unwrapped.toList)) =
      ["1) + 2;", "if (x) f((3)); else (y);"] ∧
    (∀ i, p.Holds i → ∃ first rest, first :: rest <:+: tokens ∧
      i.Extent 80 unwrapped first rest) ∧
    (∀ a, p.HasNode (.stmt a) → a = p.body ∨ p.Holds (.statement a)) ∧
    p.body.span = p.span ∧ p.IsText 80 (Token.slice p.span unwrapped.toList) := by
  have htexts : ((Token.ofSource unwrapped).toOption.bind fun tokens =>
      (Program.ofTokens 80 tokens).toOption.map fun p =>
        p.body.inside.map fun a => String.ofList (Token.slice a.span unwrapped.toList)) =
      some ["1) + 2;", "if (x) f((3)); else (y);"] := by
    decide +kernel
  obtain ⟨tokens, htokens, htexts⟩ := Option.bind_eq_some_iff.mp htexts
  obtain ⟨p, hp, htexts⟩ := Option.map_eq_some_iff.mp htexts
  have hsource : Token.ofSource unwrapped = .ok tokens := Token.eq_ok_of_toOption htokens
  have hprogram : Program.ofTokens 80 tokens = .ok p := Token.eq_ok_of_toOption hp
  exact ⟨tokens, p, hsource, hprogram, htexts, spans_are_texts hsource hprogram⟩

end MiniLang
