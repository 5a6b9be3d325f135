/-
  The tokens that a tree is laid over.

  The parser puts the span of a node together from whatever is at hand: a keyword, a first operand,
  a closing token, the last branch.  All these ways come to one: a node covers some tokens in a row.

  1. **Rows** — `Token.InRow ps ts`: phrases that stand one behind the other among some tokens, with
     anything between them.
  2. **Covering** — `n.Covers ts`: the span of the node runs from the first of the tokens to the
     last one, and its children, in the order of the source, cover phrases in a row there.  The
     parentheses around an expression belong to no node, so a phrase that is read need not be
     covered from end to end: `n.StandsIn ts` says that a part of it is.
  3. **Readers** — what a reader of the parser returns stands in the phrase that it consumed.
-/
import MiniLang.Proofs.Parsing.Delivering
import MiniLang.Proofs.Running.Handing

namespace MiniLang

/-! ## Rows -/

/-- The phrases stand one behind the other, somewhere in `ts`. -/
inductive Token.InRow : List (List Token) → List Token → Prop
  | nil {ts} : InRow [] ts
  | cons {p ps ts} (gap : List Token) : InRow ps ts → InRow (p :: ps) (gap ++ p ++ ts)

namespace Token.InRow

variable {ps qs : List (List Token)} {ts us : List Token}

theorem behind (gap : List Token) (h : InRow ps ts) : InRow ps (gap ++ ts) := by
  cases h with
  | nil => exact .nil
  | cons gap' h =>
    rw [← List.append_assoc, ← List.append_assoc]
    exact .cons _ h

theorem append (h : InRow ps ts) (h' : InRow qs us) : InRow (ps ++ qs) (ts ++ us) := by
  induction h with
  | nil => exact h'.behind _
  | cons gap _ ih =>
    rw [List.append_assoc]
    exact .cons gap ih

theorem infix_of_mem (h : InRow ps ts) : ∀ p ∈ ps, p <:+: ts := by
  induction h with
  | nil => exact nofun
  | @cons p _ ts gap _ ih =>
    refine List.forall_mem_cons.mpr ⟨List.infix_append gap p ts, fun q hq => ?_⟩
    exact (ih q hq).trans (List.suffix_append _ _).isInfix

theorem of_afterCommas (h : Grammar.AfterCommas ps ts) : InRow ps ts := by
  induction h with
  | nil => exact .nil
  | @cons comma _ _ _ _ _ ih => exact ih.cons [comma]

theorem of_separated (h : Grammar.Separated ps ts) : InRow ps ts := by
  cases h with
  | nil => exact .nil
  | cons h => exact (of_afterCommas h).cons []

theorem flatten : ∀ ps : List (List Token), InRow ps ps.flatten := by
  intro ps
  induction ps with
  | nil => exact .nil
  | cons p ps ih => exact ih.cons []

end Token.InRow

open Token (InRow)

/-- The span runs from the first of the tokens to the last one. -/
def Span.RunsOver (s : Span) (ts : List Token) : Prop :=
  ∃ first last, ts.head? = some first ∧ ts.getLast? = some last ∧
    s = first.span.through last.span

namespace Span

theorem RunsOver.ne_nil {s : Span} {ts : List Token} (h : s.RunsOver ts) : ts ≠ [] := by
  rintro rfl
  obtain ⟨_, _, hfirst, _, _⟩ := h
  cases hfirst

theorem runsOver_token (t : Token) : t.span.RunsOver [t] := ⟨t, t, rfl, rfl, rfl⟩

theorem RunsOver.through {a b : Span} {ts us : List Token} (ha : a.RunsOver ts)
    (hb : b.RunsOver us) (gap : List Token) : (a.through b).RunsOver (ts ++ gap ++ us) := by
  obtain ⟨first, _, hfirst, _, rfl⟩ := ha
  obtain ⟨_, last, _, hlast, rfl⟩ := hb
  refine ⟨first, last, ?_, ?_, rfl⟩
  · rw [List.append_assoc, List.head?_append, hfirst]
    rfl
  · rw [List.getLast?_append, hlast]
    rfl

end Span

/-! ## Covering -/

namespace Node

/-- The nodes directly below a node, in the order in which they stand in the source. -/
def children : Node → List Node
  | .expr (.binary _ left _ right) => [.expr left, .expr right]
  | .expr (.call _ _ args) => args.map .expr
  | .stmt (.block _ body) => body.map .stmt
  | .stmt (.expr _ e) | .stmt (.assign _ _ e) | .stmt (.ret _ (some e)) => [.expr e]
  | .stmt (.ifElse _ c yes none) => [.expr c, .stmt yes]
  | .stmt (.ifElse _ c yes (some no)) => [.expr c, .stmt yes, .stmt no]
  | .stmt (.loop _ c body) => [.expr c, .stmt body]
  | _ => []

theorem mem_children {n n' : Node} : n' ∈ n.children ↔ n.Child n' := by
  constructor
  · intro h
    unfold children at h
    split at h
    case h_1 =>
      rcases List.mem_pair.mp h with rfl | rfl
      · exact .left
      · exact .right
    case h_2 =>
      obtain ⟨e, he, rfl⟩ := List.mem_map.mp h
      exact .argument he
    case h_3 =>
      obtain ⟨s, hs, rfl⟩ := List.mem_map.mp h
      exact .member hs
    case h_4 => rw [List.mem_singleton.mp h]; exact .expr
    case h_5 => rw [List.mem_singleton.mp h]; exact .value
    case h_6 => rw [List.mem_singleton.mp h]; exact .returned
    case h_7 =>
      rcases List.mem_pair.mp h with rfl | rfl
      · exact .cond
      · exact .yes
    case h_8 =>
      rcases List.mem_cons.mp h with rfl | h
      · exact .cond
      · rcases List.mem_pair.mp h with rfl | rfl
        · exact .yes
        · exact .no
    case h_9 =>
      rcases List.mem_pair.mp h with rfl | rfl
      · exact .test
      · exact .body
    case h_10 => exact nomatch h
  · intro h
    cases h with
    | argument he => exact List.mem_map_of_mem he
    | member hs => exact List.mem_map_of_mem hs
    | @cond _ _ _ no => cases no <;> exact List.mem_cons_self
    | @yes _ _ _ no => cases no <;> exact .tail _ List.mem_cons_self
    | no => exact .tail _ (.tail _ List.mem_cons_self)
    | left | expr | value | test | returned => exact List.mem_cons_self
    | right | body => exact .tail _ List.mem_cons_self

/-- The span of the node runs over the tokens, and its children cover phrases in a row there. -/
inductive Covers : List Token → Node → Prop
  | mk {ts n} (parts : List (List Token × Node)) : n.span.RunsOver ts →
      parts.map (·.2) = n.children → InRow (parts.map (·.1)) ts →
      (∀ a ∈ parts, Covers a.1 a.2) → Covers ts n

/-- The node covers some of the tokens. -/
def StandsIn (n : Node) (ts : List Token) : Prop := ∃ us, us <:+: ts ∧ n.Covers us

/-- The nodes stand one behind the other, somewhere in `ts`. -/
def InLine (ns : List Node) (ts : List Token) : Prop :=
  ∃ parts : List (List Token × Node), parts.map (·.2) = ns ∧ InRow (parts.map (·.1)) ts ∧
    ∀ a ∈ parts, a.2.Covers a.1

section

variable {n left right : Node} {ns ms : List Node} {ts us : List Token}

theorem Covers.runsOver (h : n.Covers ts) : n.span.RunsOver ts := by
  cases h with
  | mk _ hspan _ _ _ => exact hspan

theorem Covers.inLine (h : n.Covers ts) : InLine n.children ts := by
  cases h with
  | mk parts _ hchildren hrow hparts => exact ⟨parts, hchildren, hrow, hparts⟩

theorem Covers.of_inLine (hspan : n.span.RunsOver ts) (hline : InLine n.children ts) :
    n.Covers ts := by
  obtain ⟨parts, hchildren, hrow, hparts⟩ := hline
  exact .mk parts hspan hchildren hrow hparts

theorem Covers.standsIn (h : n.Covers ts) : n.StandsIn ts := ⟨ts, List.infix_refl ts, h⟩

theorem StandsIn.ne_nil (h : n.StandsIn ts) : ts ≠ [] := by
  obtain ⟨us, hus, hn⟩ := h
  exact fun hts => hn.runsOver.ne_nil (List.infix_nil.mp (hts ▸ hus))

theorem StandsIn.mono (h : n.StandsIn us) (hus : us <:+: ts) : n.StandsIn ts := by
  obtain ⟨vs, hvs, hn⟩ := h
  exact ⟨vs, hvs.trans hus, hn⟩

theorem inLine_nil : InLine [] ts := ⟨[], rfl, .nil, nofun⟩

theorem StandsIn.inLine (h : n.StandsIn ts) : InLine [n] ts := by
  obtain ⟨us, ⟨before, behind, rfl⟩, hn⟩ := h
  exact ⟨[(us, n)], rfl, .cons before .nil, by simpa using hn⟩

theorem InLine.append (h : InLine ns ts) (h' : InLine ms us) : InLine (ns ++ ms) (ts ++ us) := by
  obtain ⟨parts, rfl, hrow, hparts⟩ := h
  obtain ⟨parts', rfl, hrow', hparts'⟩ := h'
  refine ⟨parts ++ parts', List.map_append, ?_, List.forall_mem_append.mpr ⟨hparts, hparts'⟩⟩
  rw [List.map_append]
  exact hrow.append hrow'

theorem InLine.behind (gap : List Token) (h : InLine ns ts) : InLine ns (gap ++ ts) :=
  inLine_nil.append h

theorem InLine.before (gap : List Token) (h : InLine ns ts) : InLine ns (ts ++ gap) := by
  have happend : InLine (ns ++ []) (ts ++ gap) := h.append inLine_nil
  rwa [List.append_nil] at happend

/-- Nodes of phrases in a row. -/
theorem inLine_of_parts {α : Type} {node : α → Node} {parts : List (List Token × α)}
    (hrow : InRow (parts.map (·.1)) ts) (hparts : ∀ a ∈ parts, (node a.2).StandsIn a.1) :
    InLine ((parts.map (·.2)).map node) ts := by
  induction parts generalizing ts with
  | nil => exact inLine_nil
  | cons a parts ih =>
    obtain ⟨ha, hparts⟩ := List.forall_mem_cons.mp hparts
    cases hrow with
    | cons gap hrow =>
      rw [List.append_assoc]
      exact .behind gap (ha.inLine.append (ih hrow hparts))

/-- From one token to another, with the children between them. -/
theorem covers_between {t u : Token} (hspan : n.span = t.span.through u.span)
    (hline : InLine n.children ts) : n.Covers (t :: ts ++ [u]) := by
  refine .of_inLine ?_ (.before [u] (.behind [t] hline))
  rw [hspan]
  exact (Span.runsOver_token t).through (Span.runsOver_token u) ts

/-- From one child to the other. -/
theorem standsIn_join (gap : List Token) (hspan : n.span = left.span.through right.span)
    (hchildren : n.children = [left, right]) (hleft : left.StandsIn ts)
    (hright : right.StandsIn us) : n.StandsIn (ts ++ gap ++ us) := by
  obtain ⟨ts, ⟨before, between, rfl⟩, hleft⟩ := hleft
  obtain ⟨us, ⟨between', behind, rfl⟩, hright⟩ := hright
  refine ⟨ts ++ (between ++ gap ++ between') ++ us, ⟨before, behind, by simp⟩, .of_inLine ?_ ?_⟩
  · rw [hspan]
    exact hleft.runsOver.through hright.runsOver _
  · rw [hchildren]
    exact (hleft.standsIn.inLine.before _).append hright.standsIn.inLine

/-- From a token to the last child. -/
theorem standsIn_to_last {t : Token} (hspan : n.span = t.span.through right.span)
    (hchildren : n.children = ns ++ [right]) (hline : InLine ns ts)
    (hright : right.StandsIn us) : n.StandsIn (t :: ts ++ us) := by
  obtain ⟨us, ⟨between, behind, rfl⟩, hright⟩ := hright
  refine ⟨t :: (ts ++ between) ++ us, ⟨[], behind, by simp⟩, .of_inLine ?_ ?_⟩
  · rw [hspan]
    exact (Span.runsOver_token t).through hright.runsOver _
  · rw [hchildren]
    exact ((hline.before between).behind [t]).append hright.standsIn.inLine

end

end Node

/-- The span of the definition runs over the tokens, and its body stands in them. -/
structure FunctionDef.Covers (f : FunctionDef) (ts : List Token) : Prop where
  runsOver : f.span.RunsOver ts
  body : (Node.stmt f.body).StandsIn ts

/-! ## Readers -/

namespace Parse

open Node (InLine inLine_nil)

/-- The item covers some of the tokens. -/
def Item.StandsIn : Item → List Token → Prop
  | .definition f, ts => f.Covers ts
  | .statement a, ts => (Node.stmt a).StandsIn ts

theorem Item.StandsIn.ne_nil {i : Item} {ts : List Token} (h : i.StandsIn ts) : ts ≠ [] := by
  cases i with
  | definition f => exact h.runsOver.ne_nil
  | statement a => exact Node.StandsIn.ne_nil h

variable {d : Nat}

/-! ### Expressions -/

/-- An expression stands in its phrase, and a call covers its phrase. -/
theorem expressionRules_stand : ExpressionRules (fun ts e => (Node.expr e).StandsIn ts)
    fun t ts e => (Node.expr e).Covers (t :: ts) where
  number t _ := Node.Covers.standsIn (.of_inLine (Span.runsOver_token t) inLine_nil)
  name t _ := Node.Covers.standsIn (.of_inLine (Span.runsOver_token t) inLine_nil)
  call _ _ _ _ he := he.standsIn
  arguments t l r us parts hsep hparts := by
    have hline : InLine ((parts.map (·.2)).map .expr) us :=
      Node.inLine_of_parts (.of_separated hsep) hparts
    exact Node.covers_between rfl (hline.behind [l])
  parens l r ts _ _ he := he.mono (List.infix_append [l] ts [r])
  minus t ts e _ he := by
    -- the zero stands where the sign does
    have hzero : (Node.expr (.lit t.span 0)).Covers [t] :=
      .of_inLine (Span.runsOver_token t) inLine_nil
    exact Node.standsIn_join (n := .expr (.binary _ _ .minus e)) [] rfl rfl hzero.standsIn he
  binary ts left op us right hleft hright := by
    have hjoined := Node.standsIn_join (n := .expr (.binary _ left op.kind right)) [op] rfl rfl
      hleft hright
    rwa [List.append_assoc] at hjoined

theorem expressions_stand (d : Nat) :
    ExpressionsDeliver (fun ts e => (Node.expr e).StandsIn ts)
      (fun t ts e => (Node.expr e).Covers (t :: ts)) d := expressionRules_stand.deliver d

/-! ### Statements -/

/-- An expression and its semicolon: the statement begins where the expression does. -/
theorem closed_delivers {e : Expr} {start : Span} {us : List Token} (gap : List Token)
    (he : (Node.expr e).Covers us) (hstart : start.start = e.span.start) :
    Delivers (closed e start) fun ts a => (Node.stmt a).Covers (us ++ gap ++ ts) := by
  intro s hs
  rw [closed]
  refine expect_and_then (by decide) hs ?_
  rintro semi s rfl -
  refine ⟨[semi], rfl, .of_inLine ?_ ?_⟩
  · have hspan : start.through semi.span = e.span.through semi.span := by
      rw [Span.through, hstart]
      rfl
    show (start.through semi.span).RunsOver _
    rw [hspan]
    exact he.runsOver.through (Span.runsOver_token semi) gap
  · exact (he.standsIn.inLine.before gap).before [semi]

/-- The readers of statements deliver what stands in their phrases; a block covers its phrase. -/
structure StatementsStand (d : Nat) : Prop where
  statement : Delivers (statement d) fun ts a => (Node.stmt a).StandsIn ts
  block : Delivers (block d) fun ts a => (Node.stmt a).Covers ts

/-- A call as a statement, after its name. -/
theorem call_closed_delivers (t : Token) :
    Delivers (do let e ← callOf d t; closed e t.span) fun ts a =>
      (Node.stmt a).StandsIn (t :: ts) := by
  intro s hs
  refine ((expressions_stand d).callOf t).and_then hs (by omega) ?_
  rintro e ts s rfl he
  have hstart : t.span.start = e.span.start := by
    obtain ⟨first, _, hfirst, _, hspan⟩ := he.runsOver
    cases hfirst
    exact (congrArg Span.start hspan).symm
  refine (closed_delivers [] he hstart s hs).mono ?_ fun halt h => h.trans (by omega)
  rintro a s' ⟨us, rfl, ha⟩
  rw [List.append_nil] at ha
  exact ⟨ts ++ us, by simp, ha.standsIn⟩

/-- An expression as a statement. -/
theorem expression_closed_delivers :
    Delivers (do let e ← expression d; closed e e.span) fun ts a =>
      (Node.stmt a).StandsIn ts := by
  intro s hs
  refine (expressions_stand d).expression.and_then hs (by omega) ?_
  rintro e _ s rfl ⟨ts, ⟨before, gap, rfl⟩, he⟩
  refine (closed_delivers gap he rfl s hs).mono ?_ fun halt h => h.trans (by omega)
  rintro a s' ⟨us, rfl, ha⟩
  exact ⟨before ++ ts ++ gap ++ us, by simp, _, ⟨before, [], by simp⟩, ha⟩

/-- A keyword that is known to stand in front, and a condition in parentheses. -/
theorem condition_and_then {β : Type} {N : Nat} {f : Expr → Parse β} {s : TokenStream}
    {good : β → TokenStream → Prop} (hs : s.Ended) (hfront : s.front.kind ≠ .eof) (hN : 0 < N)
    (hnext : ∀ c t ts s', s = s'.prepend (t :: ts) → InLine [.expr c] ts →
      (f c).Meets s' good (Short 0 N)) :
    (do let _ ← pop
        let _ ← expect .lparen
        let c ← expression d
        let _ ← expect .rparen
        f c).Meets s good (Short 0 N) := by
  refine pop_and_then hs hfront ?_
  rintro t s rfl
  refine expect_and_then (by decide) hs ?_
  rintro l s rfl -
  refine (expressions_stand d).expression.and_then hs (fun _ => hN) ?_
  rintro c ts s rfl hc
  refine expect_and_then (by decide) hs ?_
  rintro r s rfl -
  exact hnext c t ([l] ++ (ts ++ [r])) s (by simp) ((hc.inLine.before [r]).behind [l])

theorem statement_delivers (h : StatementsStand d) :
    Delivers (statement (d + 1)) fun ts a => (Node.stmt a).StandsIn ts := by
  have hexpr := (expressions_stand d).expression
  have hcall : ∀ {t : Token} {s : TokenStream}, s.Ended →
      (do let e ← callOf d t; closed e t.span).Meets s
        (fun a s' => ∃ ts, s.prepend [t] = s'.prepend ts ∧ (Node.stmt a).StandsIn ts)
        (Short 0 (11 * (s.prepend [t]).size + 1)) := by
    intro t s hs
    refine (call_closed_delivers t s hs).mono ?_ fun halt h => h.trans (by omega)
    rintro a s' ⟨ts, rfl, ha⟩
    exact ⟨t :: ts, by simp, ha⟩
  intro s hs
  rw [statement, meets_bind, meets_front]
  split
  · -- return
    next hkind =>
    refine pop_and_then hs (by rw [hkind]; decide) ?_
    rintro t s rfl
    rw [meets_bind, meets_check]
    split
    · refine expect_and_then (by decide) hs ?_
      rintro semi s rfl -
      exact ⟨t :: [] ++ [semi], by simp, Node.Covers.standsIn (Node.covers_between rfl inLine_nil)⟩
    · refine hexpr.and_then hs (by omega) ?_
      rintro e ts s rfl he
      refine expect_and_then (by decide) hs ?_
      rintro semi s rfl -
      exact ⟨t :: ts ++ [semi], by simp, Node.Covers.standsIn (Node.covers_between rfl he.inLine)⟩
  · -- if
    next hkind =>
    refine condition_and_then hs (by rw [hkind]; decide) (by omega) ?_
    rintro c t ts s rfl hc
    refine h.statement.and_then hs (by omega) ?_
    rintro yes us s rfl hyes
    refine accept_and_then (by decide) hs ?_ fun _ => ?_
    · rintro k s rfl -
      rw [if_pos rfl]
      refine h.statement.and_then hs (by omega) ?_
      rintro no vs s rfl hno
      refine ⟨t :: (ts ++ us ++ [k]) ++ vs, by simp, ?_⟩
      exact Node.standsIn_to_last rfl rfl ((hc.append hyes.inLine).before [k]) hno
    · rw [if_neg (by decide)]
      exact ⟨t :: ts ++ us, by simp, Node.standsIn_to_last rfl rfl hc hyes⟩
  · -- while
    next hkind =>
    refine condition_and_then hs (by rw [hkind]; decide) (by omega) ?_
    rintro c t ts s rfl hc
    refine h.statement.and_then hs (by omega) ?_
    rintro body us s rfl hbody
    exact ⟨t :: ts ++ us, by simp, Node.standsIn_to_last rfl rfl hc hbody⟩
  · -- a block
    refine (h.block s hs).mono ?_ fun _ h => h
    rintro a s' ⟨ts, rfl, ha⟩
    exact ⟨ts, rfl, ha.standsIn⟩
  · -- print
    next hkind =>
    refine pop_and_then hs (by rw [hkind]; decide) ?_
    rintro t s rfl
    exact hcall hs
  · -- a name, and what follows it
    next hkind =>
    rw [meets_bind, meets_second]
    split
    · next hassign =>
      refine pop_and_then hs (by rw [hkind]; decide) ?_
      rintro t s rfl
      rw [TokenStream.ahead_one_prepend_cons] at hassign
      refine pop_and_then (s := s) hs (by rw [← TokenStream.prepend_nil s, hassign]; decide) ?_
      rintro eq s rfl
      refine hexpr.and_then (s := s) hs (by omega) ?_
      rintro e ts s rfl he
      refine expect_and_then (by decide) hs ?_
      rintro semi s rfl -
      refine ⟨t :: ([eq] ++ ts) ++ [semi], by simp, ?_⟩
      exact Node.Covers.standsIn (Node.covers_between rfl (he.inLine.behind [eq]))
    · refine pop_and_then hs (by rw [hkind]; decide) ?_
      rintro t s rfl
      exact hcall hs
    · exact expression_closed_delivers s hs
  · -- any other beginning
    exact expression_closed_delivers s hs

theorem block_delivers (h : StatementsStand d) :
    Delivers (block (d + 1)) fun ts a => (Node.stmt a).Covers ts := by
  intro s hs
  rw [block]
  refine expect_and_then (by decide) hs ?_
  rintro l s rfl -
  rw [meets_bind, meets_get, meets_bind]
  refine (manyUntil_meets rfl h.statement (fun _ _ ha => ha.ne_nil) _ s hs).mono ?_
    fun halt h => h.trans (by omega)
  rintro body s' ⟨⟨ts, rfl, parts, rfl, hparts, rfl⟩, -⟩
  refine expect_and_then (by decide) hs ?_
  rintro r s rfl -
  refine ⟨l :: (parts.map (·.1)).flatten ++ [r], by simp, ?_⟩
  exact Node.covers_between rfl (Node.inLine_of_parts (.flatten _) hparts)

theorem statements_stand : ∀ d, StatementsStand d := by
  intro d
  induction d with
  | zero => exact ⟨tooDeep_delivers _, tooDeep_delivers _⟩
  | succ d ih => exact ⟨statement_delivers ih, block_delivers ih⟩

/-! ### Programs -/

theorem definition_delivers (d : Nat) : Delivers (definition d) fun ts f => f.Covers ts := by
  rcases d with _ | d
  · exact tooDeep_delivers _
  intro s hs
  rw [definition]
  refine expect_and_then (by decide) hs ?_
  rintro k s rfl -
  refine expect_and_then (by decide) hs ?_
  rintro name s rfl -
  refine (parenthesised_reads (d := 0) (c := 1) (expect_reads (by decide))).and_then (s := s) hs
    (by omega) ?_
  rintro ⟨params, r⟩ ts s rfl -
  refine (statements_stand d).block.and_then (s := s) hs (by omega) ?_
  rintro body us s rfl hbody
  refine ⟨[k] ++ (name :: ts) ++ us, by simp, ?_, ?_⟩
  · exact (Span.runsOver_token k).through hbody.runsOver _
  · exact hbody.standsIn.mono (List.suffix_append _ us).isInfix

theorem item_delivers (d : Nat) : Delivers (item d) fun ts i => i.StandsIn ts := by
  intro s hs
  rw [item, meets_bind, meets_check]
  split
  · refine (definition_delivers d).and_then hs id ?_
    rintro f ts s rfl hf
    exact ⟨ts, rfl, hf⟩
  · refine (statements_stand d).statement.and_then hs id ?_
    rintro a ts s rfl ha
    exact ⟨ts, rfl, ha⟩

/-- A program runs from the first token to the end marker, and its items have phrases between them,
    one behind the other. -/
theorem program_delivers {G : List Token → Item → Prop} (hitem : Delivers (item d) G)
    (hne : ∀ ts i, G ts i → ts ≠ []) {s : TokenStream} (hs : s.Ended) :
    (program d).Meets s (fun p s' => s'.front.kind = .eof ∧
      ∃ parts : List (List Token × Item), s = s'.prepend (parts.map (·.1)).flatten ∧
        (∀ a ∈ parts, G a.1 a.2) ∧ p.span = s.front.span.through s'.front.span ∧
        p.functions = Item.definitions (parts.map (·.2)) ∧
        p.body = .block p.span (Item.statements (parts.map (·.2)))) fun _ => True := by
  rw [program, meets_bind, meets_front, meets_bind, meets_get, meets_bind]
  refine (manyUntil_meets rfl hitem hne _ s hs).mono ?_ fun _ _ => trivial
  rintro items s' ⟨⟨ts, rfl, parts, rfl, hparts, rfl⟩, hend⟩
  exact ⟨beq_iff_eq.mp (hend (Nat.le_refl _)), parts, rfl, hparts, rfl, rfl, rfl⟩

end Parse

end MiniLang
