/-
  Definitions may stand anywhere between the statements, and only the last one of a name counts.

  At the top of a program stand definitions and statements, in any order.  A definition ends with
  the brace of its body and begins with a keyword that nothing else begins with; so, moved to a
  place between two others, it neither takes a token from them nor keeps one from them.

  1. **Running without places** — programs that are the same but for places run alike but for
     places (`run_of_bare`).
  2. **Interleavings** — `Interleaved xs ys zs`: the list `zs` has the members of `xs` and those of
     `ys`, each in their order.
  3. **Cuts** — `Token.Cut tokens ds ss rest`: the tokens are the definitions `ds` and the statements
     `ss`, interleaved, and what follows an end marker.  Whatever can be parsed has a cut
     (`cut_of_ofTokens`), and whatever has one is parsed, in every other interleaving too, for the
     same definitions and the same statements (`ofTokens_of_interleaved`).
  4. **Hoisting** — the order of definitions among themselves is a matter of which one is the last
     (`MiniLang.Proofs.Running.Hoisting`).
-/
import Mathlib.Data.List.Forall2
import MiniLang.Proofs.Layout.Running
import MiniLang.Proofs.Parsing.Alike
import MiniLang.Proofs.Parsing.Exact
import MiniLang.Proofs.Running.Hoisting

namespace MiniLang

/-! ## Running without places -/

/-- The layout in which everything stands at one place. -/
def Layout.flat : Layout := ⟨fun _ => .origin, fun _ => .origin⟩

theorem Expr.placed_flat : ∀ e : Expr, e.placed .flat = e.bare
  | .lit s v => by rw [Expr.placed, Expr.bare]; rfl
  | .var s name => by rw [Expr.placed, Expr.bare]; rfl
  | .binary s left op right => by
    rw [Expr.placed, Expr.bare, placed_flat left, placed_flat right]
    rfl
  | .call s name args => by
    rw [Expr.placed, Expr.bare, List.map_congr_left fun e _ => placed_flat e]
    rfl
  | .stray s label => by rw [Expr.placed, Expr.bare]; rfl

theorem Stmt.placed_flat : ∀ s : Stmt, s.placed .flat = s.bare
  | .block s body => by
    rw [Stmt.placed, Stmt.bare, List.map_congr_left fun s _ => placed_flat s]
    rfl
  | .expr s e => by rw [Stmt.placed, Stmt.bare, Expr.placed_flat]; rfl
  | .assign s name e => by rw [Stmt.placed, Stmt.bare, Expr.placed_flat]; rfl
  | .ifElse s cond yes none => by
    rw [Stmt.placed, Stmt.bare, Expr.placed_flat, placed_flat yes]
    rfl
  | .ifElse s cond yes (some no) => by
    rw [Stmt.placed, Stmt.bare, Expr.placed_flat, placed_flat yes, placed_flat no]
    rfl
  | .loop s cond body => by rw [Stmt.placed, Stmt.bare, Expr.placed_flat, placed_flat body]; rfl
  | .ret s value => by
    rw [Stmt.placed, Stmt.bare, funext Expr.placed_flat]
    rfl
  | .stray s label => by rw [Stmt.placed, Stmt.bare]; rfl

theorem Program.placed_flat (p : Program) : p.placed .flat = p.bare := by
  have hdefinition : ∀ f : FunctionDef, f.placed .flat = f.bare := by
    intro f
    rw [FunctionDef.placed, Stmt.placed_flat]
    rfl
  rw [Program.placed, Program.bare, funext hdefinition, Stmt.placed_flat]
  rfl

/-- The reason of a stop without its place. -/
def Halt.bare (halt : Halt) : Halt := halt.placed .flat

/-- The two outcomes are the same but for places. -/
structure Outcome.SameBare (o o' : Outcome) : Prop where
  output : o.output = o'.output
  steps : o.steps = o'.steps
  globals : o.globals = o'.globals
  halt : o.halt.map Halt.bare = o'.halt.map Halt.bare

theorem run_of_bare {p q : Program} (h : p.bare = q.bare) (limits : Limits) :
    (p.run limits).SameBare (q.run limits) := by
  have hplaced : (p.run limits).placed .flat = (q.run limits).placed .flat := by
    rw [← run_placed, ← run_placed, Program.placed_flat, Program.placed_flat, h]
  have hmachine := congrArg Outcome.machine hplaced
  have houtput := congrArg Machine.output hmachine
  have hsteps := congrArg Machine.steps hmachine
  have hglobals := congrArg Machine.globalVars hmachine
  rw [Outcome.placed, Outcome.placed, Machine.globalVars_placed, Machine.globalVars_placed]
    at hglobals
  exact { output := houtput, steps := hsteps, globals := hglobals,
          halt := congrArg Outcome.halt hplaced }

/-! ## Interleavings -/

/-- The members of the third list are those of the first one and those of the second one, each in
    their order. -/
inductive Interleaved {α : Type} : List α → List α → List α → Prop
  | nil : Interleaved [] [] []
  | left {x xs ys zs} : Interleaved xs ys zs → Interleaved (x :: xs) ys (x :: zs)
  | right {y xs ys zs} : Interleaved xs ys zs → Interleaved xs (y :: ys) (y :: zs)

theorem Interleaved.length_flatten {α : Type} {xs ys zs : List (List α)}
    (h : Interleaved xs ys zs) :
    zs.flatten.length = xs.flatten.length + ys.flatten.length := by
  induction h with
  | nil => rfl
  | left _ ih =>
    rw [List.flatten_cons, List.flatten_cons, List.length_append, List.length_append, ih]
    omega
  | right _ ih =>
    rw [List.flatten_cons, List.flatten_cons, List.length_append, List.length_append, ih]
    omega

/-! ## Cuts -/

open Parse (Item Meets)
open Grammar (Top Definition Statement)

/-- Definitions and statements in any order are items in that order. -/
theorem items_of_interleaved {ds ss ps : List (List Token)} (h : Interleaved ds ss ps) :
    ∀ {fs : List FunctionDef} {ts : List Stmt}, List.Forall₂ Definition ds fs →
      List.Forall₂ Statement ss ts →
      ∃ items : List (List Token × Item), items.map (·.1) = ps ∧ (∀ i ∈ items, Top i.1 i.2) ∧
        Item.definitions (items.map (·.2)) = fs ∧ Item.statements (items.map (·.2)) = ts := by
  induction h with
  | nil =>
    intro fs ts hds hss
    cases hds
    cases hss
    exact ⟨[], rfl, nofun, rfl, rfl⟩
  | @left d ds ss ps _ ih =>
    intro fs ts hds hss
    cases hds with
    | @cons _ f _ fs hf hds =>
      obtain ⟨items, rfl, hitems, rfl, rfl⟩ := ih hds hss
      exact ⟨(d, .definition f) :: items, rfl,
        List.forall_mem_cons.mpr ⟨.definition hf, hitems⟩, rfl, rfl⟩
  | @right s ds ss ps _ ih =>
    intro fs ts hds hss
    cases hss with
    | @cons _ t _ ts ht hss =>
      obtain ⟨items, rfl, hitems, rfl, rfl⟩ := ih hds hss
      exact ⟨(s, .statement t) :: items, rfl,
        List.forall_mem_cons.mpr ⟨.statement ht, hitems⟩, rfl, rfl⟩

/-- Items are definitions and statements, interleaved. -/
theorem interleaved_of_items : ∀ {items : List (List Token × Item)}, (∀ i ∈ items, Top i.1 i.2) →
    ∃ ds ss, Interleaved ds ss (items.map (·.1)) ∧
      List.Forall₂ Definition ds (Item.definitions (items.map (·.2))) ∧
      List.Forall₂ Statement ss (Item.statements (items.map (·.2))) := by
  intro items
  induction items with
  | nil => exact fun _ => ⟨[], [], .nil, .nil, .nil⟩
  | cons i items ih =>
    intro hitems
    obtain ⟨hi, hrest⟩ := List.forall_mem_cons.mp hitems
    obtain ⟨ds, ss, hinter, hds, hss⟩ := ih hrest
    obtain ⟨phrase, item⟩ := i
    cases hi with
    | definition hf => exact ⟨phrase :: ds, ss, .left hinter, .cons hf hds, hss⟩
    | statement ht => exact ⟨ds, phrase :: ss, .right hinter, hds, .cons ht hss⟩

theorem Grammar.Program.items {ts : List Token} {stop : Token} {p : MiniLang.Program}
    (h : Grammar.Program (ts ++ [stop]) p) :
    ∃ items : List (List Token × Item), ts = (items.map (·.1)).flatten ∧
      ∀ i ∈ items, Top i.1 i.2 := by
  generalize htokens : ts ++ [stop] = tokens at h
  obtain @⟨items, stop', hitems, -⟩ := h
  exact ⟨items, (List.append_inj' htokens rfl).1, hitems⟩

/-- The tokens are definitions and statements, interleaved, up to their end or to an end marker. -/
structure Token.Cut (tokens : List Token) (ds ss : List (List Token)) (rest : List Token) :
    Prop where
  definitions : ∃ fs, List.Forall₂ Definition ds fs
  statements : ∃ ts, List.Forall₂ Statement ss ts
  ended : ∀ stop ∈ rest.head?, stop.kind = .eof
  pieces : ∃ ps, Interleaved ds ss ps ∧ tokens = ps.flatten ++ rest

/-- Items are parsed for the definitions and the statements among them, wherever their tokens stand
    in the text, unless the frames run out. -/
theorem ofTokens_of_items {items : List (List Token × Item)} (hitems : ∀ i ∈ items, Top i.1 i.2)
    {rest tokens : List Token} (hended : ∀ stop ∈ rest.head?, stop.kind = .eof)
    (halike : Token.Alike ((items.map (·.1)).flatten ++ rest) tokens) (frames : Nat) :
    Program.ofTokens frames tokens = .error .tooDeep ∨
      ∃ p, Program.ofTokens frames tokens = .ok p ∧
        p.bare = ⟨.nowhere, Item.definitions (items.map (·.2)),
          .block .nowhere (Item.statements (items.map (·.2)))⟩ := by
  obtain ⟨us, rest', rfl, hus, hrest⟩ := halike.append_left
  obtain ⟨items', rfl, hvalues, hitems'⟩ :=
    Grammar.flatten_alike hus fun i hi => (hitems i hi).alike
  have hend : (TokenStream.mk rest' (TokenStream.sentinelOf ((items'.map (·.1)).flatten ++ rest'))
      ).front.kind = .eof := by
    cases rest with
    | nil =>
      rw [hrest.nil_left]
      exact TokenStream.sentinelOf_kind _
    | cons stop rest =>
      obtain ⟨stop', rest', rfl, hstop, -⟩ := hrest.cons_left
      exact (Token.kind_of_bare hstop).trans (hended stop rfl)
  have hmeets := Parse.items_taken hitems' frames hend
  rw [← hvalues]
  rcases ofTokens_of_meets hmeets with hok | ⟨halt, hhalt, hdeep⟩
  · exact .inr hok
  · rw [show halt = .tooDeep from hdeep] at hhalt
    exact .inl hhalt

section

variable {frames : Nat} {tokens rest : List Token} {ds ss : List (List Token)} {p : Program}

/-- Whatever is parsed has a cut. -/
theorem cut_of_ofTokens (h : Program.ofTokens frames tokens = .ok p) :
    ∃ ds ss rest, Token.Cut tokens ds ss rest := by
  have hmeets : (Parse.program frames).Meets (.ofTokens tokens)
      (fun _ _ => ∃ ds ss rest, Token.Cut tokens ds ss rest) fun _ => True := by
    refine (Parse.program_meets frames (TokenStream.ended_ofTokens tokens)).mono ?_
      fun _ _ => trivial
    rintro q s ⟨hend, ts, hts, hprogram⟩
    have htokens : tokens = ts ++ s.queue := congrArg TokenStream.queue hts
    obtain ⟨items, rfl, hitems⟩ := (hprogram (.endAt .origin) rfl).items
    obtain ⟨ds, ss, hinter, hds, hss⟩ := interleaved_of_items hitems
    refine ⟨ds, ss, s.queue, {
      definitions := ⟨_, hds⟩
      statements := ⟨_, hss⟩
      ended := ?_
      pieces := ⟨_, hinter, htokens⟩ }⟩
    rintro stop hstop
    rw [TokenStream.front, List.headD_eq_head?_getD, hstop] at hend
    exact hend
  rcases ofTokens_of_meets hmeets with ⟨q, -, hcut⟩ | ⟨halt, hhalt, -⟩
  · exact hcut
  · rw [h] at hhalt
    cases hhalt

/-- The definitions of a cut are those of the program, and the statements too. -/
theorem Token.Cut.program (hcut : Token.Cut tokens ds ss rest)
    (h : Program.ofTokens frames tokens = .ok p) :
    ∃ ts, p.bare = ⟨.nowhere, p.bare.functions, .block .nowhere ts⟩ ∧
      List.Forall₂ Definition ds p.bare.functions ∧ List.Forall₂ Statement ss ts := by
  obtain ⟨fs, hds⟩ := hcut.definitions
  obtain ⟨ts, hss⟩ := hcut.statements
  obtain ⟨ps, hinter, htokens⟩ := hcut.pieces
  obtain ⟨items, rfl, hitems, rfl, rfl⟩ := items_of_interleaved hinter hds hss
  rcases ofTokens_of_items hitems hcut.ended (.refl _) frames with hdeep | ⟨q, hq, hbare⟩
  · rw [← htokens, h] at hdeep
    cases hdeep
  · rw [← htokens, h] at hq
    cases hq
    rw [hbare]
    exact ⟨_, rfl, hds, hss⟩

/-- The pieces of a cut in another order are parsed for the same program, wherever their tokens stand
    in the text, unless the frames run out. -/
theorem ofTokens_of_interleaved {ps : List (List Token)} {tokens' : List Token}
    (hcut : Token.Cut tokens ds ss rest) (h : Program.ofTokens frames tokens = .ok p)
    (hinter : Interleaved ds ss ps) (halike : Token.Alike (ps.flatten ++ rest) tokens')
    (frames' : Nat) :
    Program.ofTokens frames' tokens' = .error .tooDeep ∨
      ∃ p', Program.ofTokens frames' tokens' = .ok p' ∧ p'.bare = p.bare := by
  obtain ⟨ts, hbare, hds, hss⟩ := hcut.program h
  obtain ⟨items, rfl, hitems, hfs, hts⟩ := items_of_interleaved hinter hds hss
  rw [hbare, ← hfs, ← hts]
  exact ofTokens_of_items hitems hcut.ended halike frames'

/-- They take no more frames. -/
theorem frames_of_interleaved {ps : List (List Token)} {tokens' : List Token}
    (hcut : Token.Cut tokens ds ss rest) (hinter : Interleaved ds ss ps)
    (halike : Token.Alike (ps.flatten ++ rest) tokens') :
    Program.frames tokens' = Program.frames tokens := by
  obtain ⟨ps', hinter', rfl⟩ := hcut.pieces
  have hlength := congrArg List.length halike
  rw [List.length_map, List.length_map, List.length_append, hinter.length_flatten] at hlength
  rw [Program.frames, Program.frames, List.length_append, hinter'.length_flatten, hlength]

end

/-- **Definitions are hoisted, and only the last one of a name counts.**

    1. Take two programs in which every name has the same last definition.  If they have the same
       body, their runs end in the same way after the same output and the same number of steps, and
       leave the same globals as a mapping.  If only the statements are the same, and the bodies
       stand at two places, then this is told by a run that has no time to begin, and by no other.
       Last definitions are the same after a rearrangement.
    2. Tokens that are parsed are definitions and statements, interleaved, up to an end marker.
       Interleaved in another way, and wherever they stand then, they are parsed again unless the
       frames run out, as they do not if there are enough for the first list.  The program is the
       same but for places, and so is each of its runs. -/
theorem definitions_are_hoisted :
    (∀ p q : Program, Rearranged p.functions q.functions →
      ∀ f, p.definition? f = q.definition? f) ∧
    (∀ p q : Program, (∀ f, p.definition? f = q.definition? f) → ∀ limits,
      (p.body = q.body →
        (p.run limits).halt = (q.run limits).halt ∧ (p.run limits).Agrees (q.run limits)) ∧
      ∀ span span' body, p.body = .block span body → q.body = .block span' body →
        (p.run limits).Agrees (q.run limits) ∧
        ((p.run limits).halt = (q.run limits).halt ∨ limits.clock = 0 ∧
          (p.run limits).halt = some (.failed .stepLimit span ["<main>"]) ∧
          (q.run limits).halt = some (.failed .stepLimit span' ["<main>"]))) ∧
    ∀ frames tokens p, Program.ofTokens frames tokens = .ok p →
      (∃ ds ss rest, Token.Cut tokens ds ss rest) ∧
      ∀ ds ss rest, Token.Cut tokens ds ss rest →
        ∀ ps tokens', Interleaved ds ss ps → Token.Alike (ps.flatten ++ rest) tokens' →
          ∀ frames',
            (Program.frames tokens ≤ frames' →
              Program.ofTokens frames' tokens' ≠ .error .tooDeep) ∧
            (Program.ofTokens frames' tokens' ≠ .error .tooDeep →
              ∃ p', Program.ofTokens frames' tokens' = .ok p' ∧ p'.bare = p.bare ∧
                ∀ limits, (p'.run limits).SameBare (p.run limits)) := by
  refine ⟨fun p q hre f => hre.last f, ?_, ?_⟩
  · intro p q h limits
    exact ⟨run_agrees h, fun span span' body => run_agrees_of_block h⟩
  · intro frames tokens p hp
    refine ⟨cut_of_ofTokens hp, ?_⟩
    intro ds ss rest hcut ps tokens' hinter halike frames'
    constructor
    · intro hframes
      rw [← frames_of_interleaved hcut hinter halike] at hframes
      exact ofTokens_ne_tooDeep hframes
    · intro hdeep
      rcases ofTokens_of_interleaved hcut hp hinter halike frames' with hlost | ⟨p', hp', hbare⟩
      · exact absurd hlost hdeep
      · exact ⟨p', hp', hbare, run_of_bare hbare⟩

/-- `func f() { print(1); } func g() { f(); } func f() { print(2); f = 7; } g(); print(f); g = 3;`:
    two definitions of one name, and both functions are overwritten in the end. -/
def redefining : Program :=
  { span := .nowhere
    functions := [
      ⟨.nowhere, "f", [], .block .nowhere [
        .expr .nowhere (.call .nowhere printName [.lit .nowhere 1])]⟩,
      ⟨.nowhere, "g", [], .block .nowhere [.expr .nowhere (.call .nowhere "f" [])]⟩,
      ⟨.nowhere, "f", [], .block .nowhere [
        .expr .nowhere (.call .nowhere printName [.lit .nowhere 2]),
        .assign .nowhere "f" (.lit .nowhere 7)]⟩]
    body := .block .nowhere [
      .expr .nowhere (.call .nowhere "g" []),
      .expr .nowhere (.call .nowhere printName [.var .nowhere "f"]),
      .assign .nowhere "g" (.lit .nowhere 3)] }

/-- The same without the first definition. -/
def redefining.dropped : Program := { redefining with functions := redefining.functions.tail }

/-- `func f() { }`. -/
def Token.emptyDefinition : List Token :=
  let token (kind : Token.Kind) (lexeme : String) : Token := ⟨kind, lexeme, .nowhere, none⟩
  [token .kwFunc "func", token .name "f", token .lparen "(", token .rparen ")",
   token .lbrace "\x7b", token .rbrace "\x7d"]

/-- `if (x) y = z;`, which an `else` could still follow. -/
def Token.openBranch : List Token :=
  let token (kind : Token.Kind) (lexeme : String) : Token := ⟨kind, lexeme, .nowhere, none⟩
  [token .kwIf "if", token .lparen "(", token .name "x", token .rparen ")", token .name "y",
   token .assign "=", token .name "z", token .semi ";"]

/-- The dropped definition changes the order of the globals only; and the definition may stand behind
    the branch, which then still has no `else`. -/
theorem redefining_hoisted :
    (redefining.dropped.run ⟨some 30, 0, 30⟩).output = "2\n7\n" ∧
    (redefining.dropped.run ⟨some 30, 0, 30⟩).globals.get? "f" = some 7 ∧
    (redefining.run ⟨some 30, 0, 30⟩).globals.names = ["f", "g"] ∧
    (redefining.dropped.run ⟨some 30, 0, 30⟩).globals.names = ["g", "f"] ∧
    ∃ p p', Program.ofTokens 200 (Token.emptyDefinition ++ Token.openBranch) = .ok p ∧
      Program.ofTokens 200 (Token.openBranch ++ Token.emptyDefinition) = .ok p' ∧
      p'.bare = p.bare ∧ ∀ limits, (p'.run limits).SameBare (p.run limits) := by
  obtain ⟨hrearranged, hruns, hparses⟩ := definitions_are_hoisted
  have hdropped : Rearranged redefining.functions redefining.dropped.functions :=
    @Rearranged.drop [] _ _ ⟨_, List.mem_cons_of_mem _ (List.mem_cons_self ..), rfl⟩
  have hlast := hrearranged redefining redefining.dropped hdropped
  have hagree := ((hruns redefining redefining.dropped hlast ⟨some 30, 0, 30⟩).1 rfl).2
  have houtput : (redefining.run ⟨some 30, 0, 30⟩).output = "2\n7\n" := by decide +kernel
  have hglobal : (redefining.run ⟨some 30, 0, 30⟩).globals.get? "f" = some 7 := by decide +kernel
  refine ⟨hagree.output.symm.trans houtput, (hagree.globals "f").symm.trans hglobal,
    by decide +kernel, by decide +kernel, ?_⟩
  obtain ⟨p, hp⟩ : ∃ p, Program.ofTokens 200 (Token.emptyDefinition ++ Token.openBranch) = .ok p :=
    ⟨_, rfl⟩
  have hdefinition : ∃ f, Grammar.Definition Token.emptyDefinition f :=
    ⟨_, @Grammar.Definition.mk _ _ _ _ [] _ _ _ [] rfl rfl ⟨rfl, rfl⟩ nofun .nil
      (@Grammar.Statement.block _ _ [] rfl rfl nofun)⟩
  have hbranch : ∃ t, Grammar.Statement Token.openBranch t :=
    ⟨_, .ifThen (.mk rfl ⟨rfl, rfl⟩ (.of_none (.name rfl) _))
      (.assign rfl rfl (.of_none (.name rfl) _) rfl)⟩
  obtain ⟨f, hf⟩ := hdefinition
  obtain ⟨t, ht⟩ := hbranch
  have hcut : Token.Cut (Token.emptyDefinition ++ Token.openBranch) [Token.emptyDefinition]
      [Token.openBranch] [] := {
    definitions := ⟨[f], .cons hf .nil⟩
    statements := ⟨[t], .cons ht .nil⟩
    ended := nofun
    pieces := ⟨[Token.emptyDefinition, Token.openBranch], .left (.right .nil), rfl⟩ }
  obtain ⟨henough, hagain⟩ := (hparses 200 _ p hp).2 _ _ _ hcut
    [Token.openBranch, Token.emptyDefinition] _ (.right (.left .nil)) (.refl _) 200
  obtain ⟨p', hp', hbare, hsame⟩ := hagain (henough (by decide))
  exact ⟨p, p', hp, hp', hbare, hsame⟩

end MiniLang
