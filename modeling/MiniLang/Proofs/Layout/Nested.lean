/-
  The spans of a parsed program are nested.

  1. **Spans** — a span is anchored if it begins where a token begins and ends where one ends, not
     before it begins; it may be within another one, or before it.
  2. **Tokens in order** — what runs over tokens that stand one behind the other is anchored; it is
     within what runs over more of them, and before what runs over later ones.
  3. **Programs** — every node of a parsed program covers some of its tokens
     (`Program.LaidOver.standsIn`), so all of this holds of a node and its children, and likewise
     of what stands at the top of a program.
-/
import MiniLang.Proofs.Layout.Covering
import MiniLang.Proofs.Layout.Exact

namespace MiniLang

/-! ## Spans -/

namespace Span

/-- The span begins where one of the tokens does and ends where one of them does. -/
structure Anchored (tokens : List Token) (s : Span) : Prop where
  start : ∃ t ∈ tokens, s.start = t.span.start
  stop : ∃ t ∈ tokens, s.stop = t.span.stop
  ordered : s.start.index ≤ s.stop.index

/-- The span lies inside another one. -/
def Within (s outer : Span) : Prop :=
  outer.start.index ≤ s.start.index ∧ s.stop.index ≤ outer.stop.index

/-- The span ends before another one begins, so that they have no character in common. -/
def Before (s next : Span) : Prop := s.stop.index ≤ next.start.index

/-- One of the spans ends before the other one begins. -/
def Apart (s s' : Span) : Prop := s.Before s' ∨ s'.Before s

end Span

/-! ## Tokens in order -/

namespace Token.InOrder

variable {ts us : List Token} {s s' : Span}

theorem sublist (h : InOrder ts) (hus : us.Sublist ts) : InOrder us where
  covers t ht := h.covers t (hus.subset ht)
  empty t ht := h.empty t (hus.subset ht)
  apart := h.apart.sublist hus

theorem ordered (h : InOrder ts) {t : Token} (ht : t ∈ ts) :
    t.span.start.index ≤ t.span.stop.index := by
  by_cases hkind : t.kind = .eof
  · rw [h.empty t ht hkind]
  · exact Nat.le_of_lt (h.covers t ht hkind)

theorem first_le (h : InOrder ts) {first t : Token} (hfirst : ts.head? = some first)
    (ht : t ∈ ts) : first.span.start.index ≤ t.span.start.index := by
  obtain ⟨rest, rfl⟩ := List.head?_eq_some_iff.mp hfirst
  rcases List.mem_cons.mp ht with rfl | hrest
  · exact Nat.le_refl _
  · have hstop := List.rel_of_pairwise_cons h.apart hrest
    exact Nat.le_trans (h.ordered List.mem_cons_self) hstop

theorem le_last (h : InOrder ts) {last t : Token} (hlast : ts.getLast? = some last)
    (ht : t ∈ ts) : t.span.stop.index ≤ last.span.stop.index := by
  obtain ⟨rest, rfl⟩ := List.getLast?_eq_some_iff.mp hlast
  rcases List.mem_append.mp ht with hrest | hsame
  · have hstop := (List.pairwise_append.mp h.apart).2.2 t hrest last (List.mem_singleton_self _)
    exact Nat.le_trans hstop (h.ordered (by simp))
  · rw [List.mem_singleton.mp hsame]

theorem anchored (h : InOrder ts) (hus : us <:+: ts) (hs : s.RunsOver us) : s.Anchored ts := by
  obtain ⟨first, last, hfirst, hlast, rfl⟩ := hs
  have hmem := List.mem_of_mem_head? hfirst
  have hmem' := List.mem_of_getLast? hlast
  have horder := h.sublist hus.sublist
  exact ⟨⟨first, hus.subset hmem, rfl⟩, ⟨last, hus.subset hmem', rfl⟩,
    Nat.le_trans (horder.ordered hmem) (horder.le_last hlast hmem)⟩

theorem within (h : InOrder ts) (hs : s.RunsOver ts) (hus : us <:+: ts) (hs' : s'.RunsOver us) :
    s'.Within s := by
  obtain ⟨first, last, hfirst, hlast, rfl⟩ := hs
  obtain ⟨first', last', hfirst', hlast', rfl⟩ := hs'
  exact ⟨h.first_le hfirst (hus.subset (List.mem_of_mem_head? hfirst')),
    h.le_last hlast (hus.subset (List.mem_of_getLast? hlast'))⟩

theorem before (h : InOrder (ts ++ us)) (hs : s.RunsOver ts) (hs' : s'.RunsOver us) :
    s.Before s' := by
  obtain ⟨_, last, _, hlast, rfl⟩ := hs
  obtain ⟨first, _, hfirst, _, rfl⟩ := hs'
  exact (List.pairwise_append.mp h.apart).2.2 last (List.mem_of_getLast? hlast) first
    (List.mem_of_mem_head? hfirst)

/-- What runs over phrases that stand in a row stands in a row. -/
theorem pairwise_before {α : Type} {span : α → Span} {parts : List (List Token × α)}
    (h : InOrder ts) (hrow : InRow (parts.map (·.1)) ts)
    (hparts : ∀ a ∈ parts, ∃ us, us <:+: a.1 ∧ (span a.2).RunsOver us) :
    (parts.map (·.2)).Pairwise fun a b => (span a).Before (span b) := by
  induction parts generalizing ts with
  | nil => exact .nil
  | cons a parts ih =>
    obtain ⟨ha, hparts⟩ := List.forall_mem_cons.mp hparts
    cases hrow with
    | @cons _ _ rest gap hrow =>
      refine .cons ?_ (ih (h.sublist (List.sublist_append_right _ rest)) hrow hparts)
      intro _ hitem
      obtain ⟨b, hb, rfl⟩ := List.mem_map.mp hitem
      obtain ⟨us, hus, ha⟩ := ha
      obtain ⟨vs, hvs, hspan⟩ := hparts b hb
      have hinfix := hvs.trans (hrow.infix_of_mem b.1 (List.mem_map_of_mem hb))
      have hsublist : (us ++ vs).Sublist (gap ++ a.1 ++ rest) :=
        (hus.sublist.trans (List.sublist_append_right gap a.1)).append hinfix.sublist
      exact (h.sublist hsublist).before ha hspan

end Token.InOrder

/-! ## Programs -/

namespace Node

variable {n : Node} {tokens ts : List Token}

theorem Covers.child {n' : Node} (h : n.Covers ts) (hn' : n' ∈ n.children) : n'.StandsIn ts := by
  obtain ⟨parts, hchildren, hrow, hparts⟩ := h.inLine
  rw [← hchildren] at hn'
  obtain ⟨a, ha, rfl⟩ := List.mem_map.mp hn'
  exact ⟨a.1, hrow.infix_of_mem _ (List.mem_map_of_mem ha), hparts a ha⟩

/-- The span of a node is anchored, those of its children are within it, and each of them is before
    the next ones. -/
structure Nested (tokens : List Token) (n : Node) : Prop where
  anchored : n.span.Anchored tokens
  within : ∀ n' ∈ n.children, n'.span.Within n.span
  apart : n.children.Pairwise fun a b => a.span.Before b.span

theorem Covers.nested (htokens : Token.InOrder tokens) (hts : ts <:+: tokens) (h : n.Covers ts) :
    n.Nested tokens where
  anchored := htokens.anchored hts h.runsOver
  within n' hn' := by
    obtain ⟨us, hus, hcovers⟩ := h.child hn'
    exact (htokens.sublist hts.sublist).within h.runsOver hus hcovers.runsOver
  apart := by
    obtain ⟨parts, hchildren, hrow, hparts⟩ := h.inLine
    rw [← hchildren]
    exact (htokens.sublist hts.sublist).pairwise_before hrow fun a ha =>
      ⟨a.1, List.infix_refl _, (hparts a ha).runsOver⟩

end Node

namespace Parse

variable {parts : List (List Token × Item)} {tokens : List Token}

/-- Where an item stands. -/
def Item.span : Item → Span
  | .definition f => f.span
  | .statement a => a.span

theorem Item.StandsIn.runsOver {i : Item} {ts : List Token} (h : i.StandsIn ts) :
    ∃ us, us <:+: ts ∧ i.span.RunsOver us := by
  cases i with
  | definition f => exact ⟨ts, List.infix_refl ts, FunctionDef.Covers.runsOver h⟩
  | statement a =>
    obtain ⟨us, hus, ha⟩ := h
    exact ⟨us, hus, ha.runsOver⟩

theorem mem_definitions {items : List Item} {f : FunctionDef} :
    f ∈ Item.definitions items ↔ .definition f ∈ items := by
  rw [Item.definitions, List.mem_filterMap]
  constructor
  · rintro ⟨_ | _, hi, heq⟩
    · cases heq
      exact hi
    · cases heq
  · exact fun hf => ⟨_, hf, rfl⟩

theorem mem_statements {items : List Item} {a : Stmt} :
    a ∈ Item.statements items ↔ .statement a ∈ items := by
  rw [Item.statements, List.mem_filterMap]
  constructor
  · rintro ⟨_ | _, hi, heq⟩
    · cases heq
    · cases heq
      exact hi
  · exact fun ha => ⟨_, ha, rfl⟩

/-- The statements among items in a row stand in line. -/
theorem inLine_statements (hrow : Token.InRow (parts.map (·.1)) tokens)
    (hparts : ∀ a ∈ parts, a.2.StandsIn a.1) :
    Node.InLine ((Item.statements (parts.map (·.2))).map .stmt) tokens := by
  induction parts generalizing tokens with
  | nil => exact Node.inLine_nil
  | cons a parts ih =>
    obtain ⟨ts, i⟩ := a
    obtain ⟨hi, hparts⟩ := List.forall_mem_cons.mp hparts
    cases hrow with
    | cons gap hrow =>
      have hrest := ih hrow hparts
      rw [List.append_assoc]
      cases i with
      | definition f => exact (hrest.behind ts).behind gap
      | statement a => exact (Node.StandsIn.inLine hi |>.append hrest).behind gap

end Parse

open Parse (Item)

namespace Program

variable {p : Program} {tokens : List Token} {parts : List (List Token × Item)}

/-- The program runs over the tokens, and the parts are its items, with phrases in a row there. -/
structure LaidOver (p : Program) (tokens : List Token) (parts : List (List Token × Item)) :
    Prop where
  runsOver : p.span.RunsOver tokens
  row : Token.InRow (parts.map (·.1)) tokens
  items : ∀ a ∈ parts, a.2.StandsIn a.1
  functions : p.functions = Item.definitions (parts.map (·.2))
  body : p.body = .block p.span (Item.statements (parts.map (·.2)))

theorem exists_laidOver {frames : Nat} (h : Token.EndsOnce tokens)
    (hp : ofTokens frames tokens = .ok p) : ∃ parts, p.LaidOver tokens parts := by
  have hs := TokenStream.ended_ofTokens tokens
  refine good_of_ofTokens (fun p => ∃ parts, p.LaidOver tokens parts) ?_ hp
  have hdelivers := Parse.program_delivers (Parse.item_delivers frames) (fun _ _ hi => hi.ne_nil) hs
  refine ((Parse.program_meets frames hs).and hdelivers).mono ?_ fun _ _ => trivial
  rintro p ⟨queue, sentinel⟩
    ⟨⟨hend, ts, hts, hprogram⟩, -, parts, hparts, hitems, hspan, hfunctions, hbody⟩
  have htokens : tokens = ts ++ queue := congrArg TokenStream.queue hts
  obtain rfl : ts = (parts.map (·.1)).flatten :=
    List.append_cancel_right (htokens.symm.trans (congrArg TokenStream.queue hparts))
  have hunended := (hprogram (.endAt .origin) rfl).unended
  obtain ⟨stop, hstop, -⟩ := eq_append_of_endsOnce h hunended hend htokens
  obtain rfl : queue = [stop] := List.append_cancel_left (htokens.symm.trans hstop)
  refine ⟨parts, ?_, ?_, hitems, hfunctions, hbody⟩
  · obtain ⟨first, rest, rfl⟩ : ∃ first rest, tokens = first :: rest :=
      List.exists_cons_of_ne_nil (by simp [htokens])
    exact ⟨first, stop, rfl, by simp [htokens], hspan⟩
  · have hnone : Token.InRow [] [stop] := .nil
    have hrow := (Token.InRow.flatten (parts.map (·.1))).append hnone
    rwa [List.append_nil, ← htokens] at hrow

namespace LaidOver

theorem covers_of_mem (h : p.LaidOver tokens parts) {f : FunctionDef} (hf : f ∈ p.functions) :
    ∃ ts, ts <:+: tokens ∧ f.Covers ts := by
  rw [h.functions, Parse.mem_definitions] at hf
  obtain ⟨a, ha, hdefinition⟩ := List.mem_map.mp hf
  have hcovers := h.items a ha
  rw [hdefinition] at hcovers
  exact ⟨a.1, h.row.infix_of_mem _ (List.mem_map_of_mem ha), hcovers⟩

/-- Every node of the program covers some of the tokens. -/
theorem standsIn (h : p.LaidOver tokens parts) {n : Node} (hn : p.HasNode n) :
    n.StandsIn tokens := by
  induction hn with
  | body =>
    rw [h.body]
    exact Node.Covers.standsIn (.of_inLine h.runsOver (Parse.inLine_statements h.row h.items))
  | function hf =>
    obtain ⟨ts, hts, hcovers⟩ := h.covers_of_mem hf
    exact hcovers.body.mono hts
  | child _ hchild ih =>
    obtain ⟨us, hus, hcovers⟩ := ih
    exact (hcovers.child (Node.mem_children.mpr hchild)).mono hus

/-- The items stand one behind the other. -/
theorem pairwise_before (h : p.LaidOver tokens parts) (htokens : Token.InOrder tokens) :
    (parts.map (·.2)).Pairwise fun i j => i.span.Before j.span :=
  htokens.pairwise_before h.row fun a ha => (h.items a ha).runsOver

end LaidOver

/-- The spans of the nodes of a program are nested, and so are those of what stands at its top. -/
structure Nested (tokens : List Token) (p : Program) : Prop where
  nodes : ∀ n, p.HasNode n → n.Nested tokens
  anchored : p.span.Anchored tokens
  body : p.body.span.Within p.span
  definitions : ∀ f ∈ p.functions, f.span.Anchored tokens ∧ f.span.Within p.span ∧
    f.body.span.Within f.span
  /-- The definitions stand one behind the other. -/
  apart : p.functions.Pairwise fun f g => f.span.Before g.span
  /-- Definitions and statements may stand in any order at the top of a program. -/
  asunder : ∀ f ∈ p.functions, ∀ a ∈ p.body.inside, f.span.Apart a.span

theorem LaidOver.nested (h : p.LaidOver tokens parts) (htokens : Token.InOrder tokens) :
    p.Nested tokens where
  nodes n hn := by
    obtain ⟨ts, hts, hcovers⟩ := h.standsIn hn
    exact hcovers.nested htokens hts
  anchored := htokens.anchored (List.infix_refl _) h.runsOver
  body := by
    rw [h.body]
    exact ⟨Nat.le_refl _, Nat.le_refl _⟩
  definitions f hf := by
    obtain ⟨ts, hts, hcovers⟩ := h.covers_of_mem hf
    obtain ⟨us, hus, hbody⟩ := hcovers.body
    exact ⟨htokens.anchored hts hcovers.runsOver, htokens.within h.runsOver hts hcovers.runsOver,
      (htokens.sublist hts.sublist).within hcovers.runsOver hus hbody.runsOver⟩
  apart := by
    rw [h.functions]
    refine (h.pairwise_before htokens).filterMap _ ?_
    intro i j hbefore f hf g hg
    rcases i with f | a
    · rcases j with g | b
      · cases hf
        cases hg
        exact hbefore
      · cases hg
    · cases hf
  asunder f hf a ha := by
    rw [h.functions, Parse.mem_definitions] at hf
    rw [h.body, Stmt.inside, Parse.mem_statements] at ha
    have hsymm : Std.Symm fun i j : Item => i.span.Apart j.span := ⟨fun _ _ => Or.symm⟩
    have hapart : (parts.map (·.2)).Pairwise fun i j => i.span.Apart j.span :=
      (h.pairwise_before htokens).imp .inl
    exact hapart.forall hf ha (by simp)

end Program

/-- **Spans are well nested.**  Whatever source a program is parsed from, each of its nodes begins
    where a token begins and ends where one ends; its children lie within it, one behind the other
    in the order of the source; the definitions stand one behind the other too, and apart from the
    statements at the top. -/
theorem spans_nested {source : String} {tokens : List Token} {frames : Nat} {p : Program}
    (htokens : Token.ofSource source = .ok tokens) (hp : Program.ofTokens frames tokens = .ok p) :
    p.Nested tokens := by
  obtain ⟨parts, hlaid⟩ := Program.exists_laidOver (Token.endsOnce_of_ofSource htokens) hp
  exact hlaid.nested (Token.inOrder_of_ofSource htokens)

/-- A statement between two definitions, and another one behind them; the first one begins behind a
    parenthesis, which belongs to no node. -/
def bracketed : String :=
  "func f(a)\x7breturn -(a)*(a);\x7d(x)+1;func g()\x7b\x7d" ++
    "if(f((2)))while(x)x=1;else\x7bprint(x);\x7d"

theorem bracketed_nested : ∃ tokens p,
    Token.ofSource bracketed = .ok tokens ∧ Program.ofTokens 80 tokens = .ok p ∧
    p.functions.map (fun f => (f.span.start.index, f.span.stop.index)) = [(0, 27), (33, 43)] ∧
    p.body.inside.map (fun a => (a.span.start.index, a.span.stop.index)) =
      [(28, 33), (43, 80)] ∧
    p.Nested tokens := by
  have hspans : ((Token.ofSource bracketed).toOption.bind fun tokens =>
      (Program.ofTokens 80 tokens).toOption.map fun p =>
        (p.functions.map fun f => (f.span.start.index, f.span.stop.index),
          p.body.inside.map fun a => (a.span.start.index, a.span.stop.index))) =
      some ([(0, 27), (33, 43)], [(28, 33), (43, 80)]) := by
    decide +kernel
  obtain ⟨tokens, htokens, hspans⟩ := Option.bind_eq_some_iff.mp hspans
  obtain ⟨p, hp, hspans⟩ := Option.map_eq_some_iff.mp hspans
  have hsource : Token.ofSource bracketed = .ok tokens := Token.eq_ok_of_toOption htokens
  have hprogram : Program.ofTokens 80 tokens = .ok p := Token.eq_ok_of_toOption hp
  obtain ⟨hfunctions, hbody⟩ := Prod.mk.inj hspans
  exact ⟨tokens, p, hsource, hprogram, hfunctions, hbody, spans_nested hsource hprogram⟩

end MiniLang
