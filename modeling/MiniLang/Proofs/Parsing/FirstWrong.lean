/-
  The parser stops at the first wrong token.

  1. **Phrases** — what it is to be an expression, a statement, …, without saying for which tree,
     and the samples that complete one.
  2. **Readers** — each reader of the parser decides (see `Decides`) for the phrases that it reads.
     A statement that begins like an expression takes care: its first two tokens could as well
     begin a call or an assignment, and then it is such a statement that they are completed to.
  3. **Programs** — where the parser stops at a token, the tokens before it begin a program, with it
     they begin none, and with a token of the wanted kind in its place they begin one again.
-/
import MiniLang.Proofs.Parsing.Deciding
import MiniLang.Proofs.Parsing.Exact

namespace MiniLang

open Parse

namespace Grammar

/-! ## Phrases -/

def IsExpression (o : Option Level) (ts : List Token) : Prop := ∃ e, Expression o ts e

def IsStatement (ts : List Token) : Prop := ∃ a, Statement ts a

def IsBlock (ts : List Token) : Prop := ∃ span body, Statement ts (.block span body)

def IsName (ts : List Token) : Prop := ∃ t, ts = [t] ∧ t.kind = .name

def IsDefinition (ts : List Token) : Prop := ∃ f, Definition ts f

def IsTop (ts : List Token) : Prop := ∃ i, Top ts i

theorem isExpression_number {t : Token} (h : t.kind = .int) :
    IsExpression (some .equality) [t] := ⟨_, (Expression.number h).of_none _⟩

/-- Phrases that are one by one what a relation says. -/
theorem exists_parts {α : Type} {G : List Token → α → Prop} : ∀ {ps : List (List Token)},
    (∀ p ∈ ps, ∃ a, G p a) →
    ∃ parts : List (List Token × α), parts.map (·.1) = ps ∧ ∀ a ∈ parts, G a.1 a.2 := by
  intro ps
  induction ps with
  | nil => exact fun _ => ⟨[], rfl, nofun⟩
  | cons p ps ih =>
    intro h
    obtain ⟨⟨a, ha⟩, hps⟩ := List.forall_mem_cons.mp h
    obtain ⟨parts, rfl, hparts⟩ := ih hps
    exact ⟨(p, a) :: parts, rfl, List.forall_mem_cons.mpr ⟨ha, hparts⟩⟩

theorem call_of_row {t : Token} {ts : List Token} (ht : t.kind = .name ∨ t.kind = .kwPrint)
    (h : ParenRow (IsExpression (some .equality)) ts) : ∃ e, Call (t :: ts) e := by
  obtain ⟨l, r, us, ps, rfl, hp, hsep, hall⟩ := h
  obtain ⟨args, rfl, hargs⟩ := exists_parts hall
  exact ⟨_, .mk ht hp hsep hargs⟩

theorem definition_of_row {k name : Token} {ts us : List Token} (hk : k.kind = .kwFunc)
    (hname : name.kind = .name) (hts : ParenRow IsName ts) (hus : IsBlock us) :
    IsDefinition (k :: name :: (ts ++ us)) := by
  obtain ⟨l, r, vs, ps, rfl, hp, hsep, hall⟩ := hts
  obtain ⟨span, body, hbody⟩ := hus
  obtain ⟨parts, rfl, hparts⟩ := exists_parts hall
  have hnames : parts.map (·.1) = (parts.map (·.2)).map ([·]) := by
    rw [List.map_map]
    exact List.map_congr_left fun part hpart => (hparts part hpart).1
  rw [hnames] at hsep
  have hdefinition := Definition.mk hk hname hp
    (List.forall_mem_map.mpr fun part hpart => (hparts part hpart).2) hsep hbody
  exact ⟨_, by simpa using hdefinition⟩

theorem block_of_row {l r : Token} {ts : List Token} (hl : l.kind = .lbrace)
    (hr : r.kind = .rbrace) (hts : PlainRow IsStatement ts) : IsBlock (l :: (ts ++ [r])) := by
  obtain ⟨ps, rfl, hall⟩ := hts
  obtain ⟨body, rfl, hbody⟩ := exists_parts hall
  exact ⟨_, _, .block hl hr hbody⟩

theorem IsBlock.isStatement {ts : List Token} (h : IsBlock ts) : IsStatement ts := by
  obtain ⟨span, body, h⟩ := h
  exact ⟨_, h⟩

theorem program_of_row {ts : List Token} {t : Token} (ht : t.kind = .eof)
    (hts : PlainRow IsTop ts) : ∃ p, Program (ts ++ [t]) p := by
  obtain ⟨ps, rfl, hall⟩ := hts
  obtain ⟨items, rfl, hitems⟩ := exists_parts hall
  exact ⟨_, .mk hitems ht⟩

theorem ne_nil_of_isStatement : ∀ ts, IsStatement ts → ts ≠ [] := by
  rintro ts ⟨a, ha⟩ rfl
  obtain ⟨t, us, hnil, -⟩ := ha.first
  exact List.cons_ne_nil t us hnil.symm

theorem ne_nil_of_isTop : ∀ ts, IsTop ts → ts ≠ [] := by
  rintro ts ⟨i, hi⟩ rfl
  obtain ⟨t, us, hnil, -⟩ := hi.first
  exact List.cons_ne_nil t us hnil.symm

end Grammar

namespace Parse

open Grammar

variable {α β : Type} {Q : List Token → Prop} {d : Nat} {s : TokenStream}

/-! ## Expressions -/

/-- The readers of expressions decide within `d` frames. -/
structure ExpressionsDecide (d : Nat) : Prop where
  expression : ∀ s : TokenStream, s.Ended →
    Decides (fun _ => expression d) (IsExpression (some .equality)) s
  ofLevel : ∀ o, ∀ s : TokenStream, s.Ended → Decides (fun _ => ofLevel d o) (IsExpression o) s
  primary : ∀ s : TokenStream, s.Ended → Decides (fun _ => primary d) (IsExpression none) s
  callOf : ∀ t : Token, t.kind = .name ∨ t.kind = .kwPrint → ∀ s : TokenStream, s.Ended →
    Decides (fun _ => callOf d t) (fun ts => ∃ e, Call (t :: ts) e) s

theorem expression_reads_phrase (d : Nat) :
    Reads d 11 (expression d) fun ts _ => IsExpression (some .equality) ts :=
  (expressions_sound d).expression.mono fun _ _ he => ⟨_, he⟩

theorem callOf_decides (h : ExpressionsDecide d) (t : Token)
    (ht : t.kind = .name ∨ t.kind = .kwPrint) (hs : s.Ended) :
    Decides (fun _ => callOf (d + 1) t) (fun ts => ∃ e, Call (t :: ts) e) s := by
  have hrow := parenthesised_decides (expression_reads_phrase d) h.expression hs
  exact .then_pure hs (hrow.mono hs fun ts hts => ⟨[], by simpa using call_of_row ht hts⟩)

theorem chain_decides {l : Level} (h : ExpressionsDecide d) : ∀ s : TokenStream, s.Ended →
    ∀ left ts, Expression (some l) ts left.bare →
    Decides (fun n => chain l.holds (ofLevel d l.tighter?) n left)
      (fun us => IsExpression (some l) (ts ++ us)) s := by
  intro s
  induction hsize : s.size using Nat.strongRecOn generalizing s with
  | ind size ih =>
    intro hs left ts hleft
    subst hsize
    cases hop : l.holds s.front.kind with
    | false =>
      refine .congr hs (.pure left) ?_
      intro r n _ hfront _
      exact run_chain_of_other (by rw [hfront]; exact hop) n left
    | true =>
      have hfront := TokenStream.eq_prepend_front hs (ne_eof_of_holds hop)
      generalize s.front = op at hop hfront
      generalize s.pop.2 = rest at hfront
      subst hfront
      have hrest : rest.Ended := hs
      have hnext : Decides
          (fun n => do
            let right ← ofLevel d l.tighter?
            chain l.holds (ofLevel d l.tighter?) n
              (.binary (left.span.through right.span) left op.kind right))
          (fun us => IsExpression (some l) (ts ++ op :: us)) rest := by
        refine .and_then hrest (h.ofLevel l.tighter? rest hrest)
          ((expressions_sound d).ofLevel l.tighter?) ?_ ?_
        · rintro us ⟨e, he⟩
          exact ⟨[], _, by simpa using Expression.binary hleft hop he⟩
        · rintro right us rest rfl hs hright
          have hbinary := Expression.binary hleft hop hright
          rw [← Expr.bare_binary (left.span.through right.span)] at hbinary
          have hchain := (ih rest.size (by simp) rest rfl hs _ _ hbinary).shift hs us.length
          exact hchain.mono hs fun vs hvs => ⟨[], by simpa using hvs⟩
      exact .cons hrest hnext fun r n _ _ _ => run_chain_of_operator hop n left r

theorem level_decides (l : Level) (h : ExpressionsDecide d) (hs : s.Ended) :
    Decides (fun _ => level (d + 2) l) (IsExpression (some l)) s := by
  rw [level_succ]
  refine .and_then hs (h.ofLevel l.tighter? s hs) ((expressions_sound d).ofLevel l.tighter?) ?_ ?_
  · rintro ts ⟨e, he⟩
    exact ⟨[], e, by simpa using Expression.operand he⟩
  · rintro first ts s rfl hs hfirst
    exact .sized (q := fun n => chain l.holds (ofLevel d l.tighter?) n first) hs
      (chain_decides h s hs first ts (.operand hfirst))

theorem unary_decides (h : ExpressionsDecide d) (hs : s.Ended) :
    Decides (fun _ => unary (d + 1)) (IsExpression none) s := by
  refine .front_and_then hs ?_
  refine .accept_and_then (by decide) hs ?_ fun _ => h.primary s hs
  rintro sign s rfl hs hsign
  refine .then_pure hs ((h.ofLevel none s hs).mono hs ?_)
  rintro ts ⟨e, he⟩
  exact ⟨[], _, by simpa using Expression.minus hsign he⟩

theorem primary_decides (h : ExpressionsDecide d) (hs : s.Ended) :
    Decides (fun _ => primary (d + 1)) (IsExpression none) s := by
  have hcall : ∀ {t : Token} {ts : List Token}, (∃ e, Call (t :: ts) e) →
      ∃ us, IsExpression none (t :: (ts ++ us)) := by
    rintro t ts ⟨e, he⟩
    exact ⟨[], e, by simpa using he.expression⟩
  refine .front_and_then hs ?_
  cases hkind : s.front.kind with
  | int => exact .pop_and_then hs (by rw [hkind]; decide) fun _ _ _ _ => .pure _
  | name =>
    refine .pop_and_then hs (by rw [hkind]; decide) ?_
    rintro t s rfl hs
    refine .check_and_then hs (fun _ => ?_) fun _ => .pure _
    exact (h.callOf t (.inl hkind) s hs).mono hs fun ts hts => hcall hts
  | kwPrint =>
    refine .pop_and_then hs (by rw [hkind]; decide) ?_
    rintro t s rfl hs
    refine .check_and_then hs (fun _ => ?_) fun _ => ?_
    · exact (h.callOf t (.inr hkind) s hs).mono hs fun ts hts => hcall hts
    · refine .front_and_then hs (.fail rfl ?_)
      intro l hl
      obtain ⟨e, he⟩ := call_of_row (.inr hkind) (parenRow_nil (r := sample .rparen) ⟨hl, rfl⟩)
      exact ⟨[sample .rparen], e, he.expression⟩
  | lparen =>
    refine .pop_and_then hs (by rw [hkind]; decide) ?_
    rintro l s rfl hs
    refine .and_then hs (h.expression s hs) (expressions_sound d).expression ?_ ?_
    · rintro ts ⟨e, he⟩
      exact ⟨[sample .rparen], e, .parens ⟨hkind, rfl⟩ he⟩
    · rintro e ts s rfl hs he
      exact .expect_and_then (by decide) hs (fun r hr => ⟨[], _, .parens ⟨hkind, hr⟩ he⟩)
        fun _ _ _ _ _ => .pure _
  | _ => exact .fail rfl fun u hu => ⟨[], _, .number hu⟩

theorem expressions_decide : ∀ d, ExpressionsDecide d := by
  intro d
  induction d using Nat.strongRecOn with
  | ind d ih =>
    -- a level hands on two frames less, so the induction looks two steps back
    cases d with
    | zero =>
      refine ⟨fun _ _ => .tooDeep, fun o _ _ => ?_, fun _ _ => .tooDeep, fun _ _ _ _ => .tooDeep⟩
      rcases o with _ | l
      · exact .tooDeep
      · cases l <;> exact .tooDeep
    | succ d =>
      have h := ih d (by omega)
      refine ⟨h.ofLevel (some .equality), fun o s hs => ?_, fun s hs => primary_decides h hs,
        fun t ht s hs => callOf_decides h t ht hs⟩
      rcases o with _ | l
      · exact unary_decides h hs
      · cases d with
        | zero => cases l <;> exact .tooDeep
        | succ d => exact level_decides l (ih d (by omega)) hs

/-! ## Statements -/

/-- The stream shows no call and no assignment, whatever else it shows. -/
def Free (s : TokenStream) : Prop :=
  s.front.kind ≠ .kwPrint ∧
    (s.front.kind = .name → (s.ahead 1).kind ≠ .lparen ∧ (s.ahead 1).kind ≠ .assign)

/-- If some tokens of such a stream go on to a reserved phrase, then they do so behind the first
    token, or behind a name. -/
theorem reserved_of_free {ts us : List Token} {u : Token} {rest : TokenStream} (hs : Free s)
    (hts : s = rest.prepend ts) (hres : Reserved (ts ++ u :: us)) :
    (ts = [] ∧ (u.kind = .kwPrint ∨ u.kind = .name)) ∨
      ∃ t, ts = [t] ∧ t.kind = .name ∧ (u.kind = .lparen ∨ u.kind = .assign) := by
  subst hts
  rcases ts with _ | ⟨t, _ | ⟨t', ts⟩⟩
  · left
    refine ⟨rfl, ?_⟩
    cases us with
    | nil => exact .inl hres
    | cons u' us => exact hres.imp id And.left
  · right
    exact ⟨t, rfl, hres.resolve_left hs.1⟩
  · exfalso
    rcases hres with hprint | ⟨hname, hparen | hassign⟩
    · exact hs.1 hprint
    · exact (hs.2 hname).1 hparen
    · exact (hs.2 hname).2 hassign

/-- An expression that some tokens of such a stream go on to begins a statement, or its first two
    tokens begin another one. -/
theorem isStatement_of_free {ts us : List Token} {u : Token} {rest : TokenStream} (hs : Free s)
    (hts : s = rest.prepend ts) (h : IsExpression (some .equality) (ts ++ u :: us)) :
    ∃ vs, IsStatement (ts ++ u :: vs) := by
  obtain ⟨e, he⟩ := h
  by_cases hres : Reserved (ts ++ u :: (us ++ [sample .semi]))
  · rcases reserved_of_free hs hts hres with ⟨rfl, hprint | hname⟩ | ⟨t, rfl, ht, hparen | hassign⟩
    · obtain ⟨e, hcall⟩ := call_of_row (.inr hprint)
        (parenRow_nil (l := sample .lparen) (r := sample .rparen) ⟨rfl, rfl⟩)
      exact ⟨[sample .lparen, sample .rparen, sample .semi], _, .call hcall rfl⟩
    · exact ⟨[sample .semi], _, .expr ((Expression.name hname).of_none _) rfl
        (by simp [Reserved, sample, hname])⟩
    · obtain ⟨e, hcall⟩ := call_of_row (.inl ht) (parenRow_nil (r := sample .rparen) ⟨hparen, rfl⟩)
      exact ⟨[sample .rparen, sample .semi], _, .call hcall rfl⟩
    · obtain ⟨e, hone⟩ := isExpression_number (t := sample .int) rfl
      exact ⟨[sample .int, sample .semi], _, .assign ht hassign hone rfl⟩
  · have hstatement := Statement.expr (s := sample .semi) he rfl (by simpa using hres)
    exact ⟨us ++ [sample .semi], _, by simpa using hstatement⟩

theorem closed_decides {e : Expr} {start : Span} (hs : s.Ended)
    (hsemi : ∀ semi : Token, semi.kind = .semi → Q [semi]) :
    Decides (fun _ => closed e start) Q s :=
  .expect_and_then (by decide) hs (fun semi h => ⟨[], hsemi semi h⟩) fun _ _ _ _ _ => .pure _

/-- An expression and a semicolon, where nothing else can be meant. -/
theorem general_decides (hs : s.Ended) (hfree : Free s) :
    Decides (fun _ => (do let e ← expression d; closed e e.span : Parse Stmt)) IsStatement s := by
  refine .and_then_of_meets (G := fun ts e _ => Expression (some .equality) ts e.bare) hs
    ((expressions_decide d).expression s hs) (fun _ _ => (expressions_sound d).expression s hs)
    (fun ts u us rest hts h => isStatement_of_free hfree hts h) ?_
  rintro e ts rest hts hrest he
  refine closed_decides hrest fun semi hsemi => ⟨_, .expr he hsemi ?_⟩
  intro hres
  obtain ⟨t, us, hcons, -⟩ := he.first
  rcases reserved_of_free hfree hts hres with ⟨rfl, -⟩ | ⟨t', -, -, h | h⟩
  · cases hcons
  · rw [hsemi] at h
    cases h
  · rw [hsemi] at h
    cases h

theorem call_closed_decides {t : Token} {start : Span} (ht : t.kind = .name ∨ t.kind = .kwPrint)
    (hs : s.Ended) :
    Decides (fun _ => (do let e ← callOf d t; closed e start : Parse Stmt))
      (fun ts => IsStatement (t :: ts)) s := by
  refine .and_then hs ((expressions_decide d).callOf t ht s hs) ((expressions_sound d).callOf t ht)
    ?_ ?_
  · rintro ts ⟨e, he⟩
    exact ⟨[sample .semi], _, .call he rfl⟩
  · rintro e ts s rfl hs he
    exact closed_decides hs fun semi hsemi => ⟨_, .call he hsemi⟩

/-- A keyword that is known to stand in front, and a condition in parentheses. -/
theorem head_decides {k : Token.Kind} (hk : k ≠ .eof) {f : Expr → Parse β} (hs : s.Ended)
    (hfront : s.front.kind = k) (hQ : ∀ ts c, Head k ts c → ∃ us, Q (ts ++ us))
    (hf : ∀ c ts rest, Head k ts c.bare → TokenStream.Ended rest →
      Decides (fun _ => f c) (fun us => Q (ts ++ us)) rest) :
    Decides (fun _ => (do
      let _ ← pop
      let _ ← expect .lparen
      let c ← expression d
      let _ ← expect .rparen
      f c : Parse β)) Q s := by
  refine .pop_and_then hs (hfront ▸ hk) ?_
  rintro t s rfl hs
  refine .expect_and_then (by decide) hs (fun l hl => ?_) ?_
  · obtain ⟨e, he⟩ := isExpression_number (t := sample .int) rfl
    obtain ⟨us, hus⟩ := hQ _ _ (.mk (r := sample .rparen) hfront ⟨hl, rfl⟩ he)
    exact ⟨_, hus⟩
  · rintro l s rfl hs hl
    refine .and_then hs ((expressions_decide d).expression s hs) (expressions_sound d).expression
      ?_ ?_
    · rintro ts ⟨e, he⟩
      obtain ⟨us, hus⟩ := hQ _ _ (.mk (r := sample .rparen) hfront ⟨hl, rfl⟩ he)
      exact ⟨sample .rparen :: us, by simpa using hus⟩
    · rintro c ts s rfl hs hc
      refine .expect_and_then (by decide) hs (fun r hr => ?_) ?_
      · obtain ⟨us, hus⟩ := hQ _ _ (.mk hfront ⟨hl, hr⟩ hc)
        exact ⟨us, by simpa using hus⟩
      · rintro r s rfl hs hr
        refine (hf c _ s (.mk hfront ⟨hl, hr⟩ hc) hs).mono hs fun us hus => ⟨[], ?_⟩
        simpa using hus

/-- The readers of statements decide within `d` frames. -/
structure StatementsDecide (d : Nat) : Prop where
  statement : ∀ s : TokenStream, s.Ended → Decides (fun _ => statement d) IsStatement s
  block : ∀ s : TokenStream, s.Ended → Decides (fun _ => block d) IsBlock s

theorem statement_reads_phrase (d : Nat) : Reads d 12 (statement d) fun ts _ => IsStatement ts :=
  (statements_sound d).statement.reads.mono fun _ _ ha => ⟨_, ha⟩

theorem block_decides (h : StatementsDecide d) (hs : s.Ended) :
    Decides (fun _ => block (d + 1)) IsBlock s := by
  refine .expect_and_then (by decide) hs
    (fun l hl => ⟨[sample .rbrace], block_of_row hl rfl plainRow_nil⟩) ?_
  rintro l s rfl hs hl
  refine .sized (q := fun n => do
    let body ← manyUntil (fun k => k == .rbrace || k == .eof) (statement d) n
    let rbrace ← expect .rbrace
    return Stmt.block (l.span.through rbrace.span) body) hs ?_
  have hrow := statement_reads_phrase d
  refine .and_then_of_meets hs
    (manyUntil_decides rfl hrow ne_nil_of_isStatement h.statement s hs)
    (fun n _ => manyUntil_reads_row rfl hrow ne_nil_of_isStatement n hs) ?_ ?_
  · rintro ts u us rest - hts
    exact ⟨us ++ [sample .rbrace], by simpa using block_of_row hl (r := sample .rbrace) rfl hts⟩
  · rintro body ts s rfl hs hts
    exact .expect_and_then (by decide) hs (fun r hr => ⟨[], block_of_row hl hr hts⟩)
      fun _ _ _ _ _ => .pure _

theorem isStatement_braces : IsStatement [sample .lbrace, sample .rbrace] :=
  (block_of_row rfl rfl plainRow_nil).isStatement

/-- A statement that begins with a name. -/
theorem statement_decides_name (hs : s.Ended) (hkind : s.front.kind = .name) :
    Decides (fun _ => statement (d + 1)) IsStatement s := by
  have hne : s.front.kind ≠ .eof := by rw [hkind]; decide
  have hnone : s.front.kind ≠ .kwPrint := by rw [hkind]; decide
  -- the same front before a semicolon: from there an expression is taken
  have hmoves : ∃ (r : TokenStream) (n : Nat), r.Ended ∧ r.front = s.front ∧ r.size ≤ n ∧
      (do let e ← expression d; closed e e.span : Parse Stmt).Meets r
        (fun _ rest => rest.size < r.size) (· = .tooDeep) := by
    let r : TokenStream := ⟨[], .endAt .origin⟩
    have hsemi : (sample .semi).kind = .semi := rfl
    have htakes := expression_closed_takes d ((Expression.name hkind).of_none _) hsemi r
    refine ⟨r.prepend [s.front, sample .semi], 2, rfl, rfl, Nat.le_refl _, ?_⟩
    refine Meets.mono htakes ?_ fun _ h => h
    rintro a rest ⟨-, rfl⟩
    exact Nat.zero_lt_succ _
  refine .front_and_then hs ?_
  rw [hkind]
  cases hsecond : (s.ahead 1).kind with
  | assign =>
    refine .second_pop_and_then hs hne (fun _ => by rw [hsecond]) ?_
    rintro t s rfl hs
    rw [TokenStream.ahead_one_prepend_cons] at hsecond
    refine .pop_and_then hs (by rw [← TokenStream.prepend_nil s, hsecond]; decide) ?_
    rintro eq s rfl hs
    refine .and_then hs ((expressions_decide d).expression s hs) (expressions_sound d).expression
      ?_ ?_
    · rintro ts ⟨e, he⟩
      exact ⟨[sample .semi], _, .assign hkind hsecond he rfl⟩
    · rintro e ts s rfl hs he
      exact .expect_and_then (by decide) hs
        (fun semi hsemi => ⟨[], _, .assign hkind hsecond he hsemi⟩) fun _ _ _ _ _ => .pure _
  | lparen =>
    refine .second_pop_and_then hs hne (fun _ => by rw [hsecond]) ?_
    rintro t s rfl hs
    exact call_closed_decides (.inl hkind) hs
  | _ =>
    have hfree : Free s := ⟨hnone, fun _ => ⟨by rw [hsecond]; decide, by rw [hsecond]; decide⟩⟩
    refine .second_and_then ?_ ?_
    · rw [hsecond]
      exact general_decides hs hfree
    · rw [hsecond]
      exact hmoves

theorem statement_decides (h : StatementsDecide d) (hs : s.Ended) :
    Decides (fun _ => statement (d + 1)) IsStatement s := by
  by_cases hname : s.front.kind = .name
  · exact statement_decides_name hs hname
  refine .front_and_then hs ?_
  cases hkind : s.front.kind with
  | kwReturn =>
    refine .pop_and_then hs (by rw [hkind]; decide) ?_
    rintro t s rfl hs
    refine .check_and_then hs (fun _ => ?_) fun _ => ?_
    · exact .expect_and_then (by decide) hs (fun semi hsemi => ⟨[], _, .retNone hkind hsemi⟩)
        fun _ _ _ _ _ => .pure _
    · refine .and_then hs ((expressions_decide d).expression s hs) (expressions_sound d).expression
        ?_ ?_
      · rintro ts ⟨e, he⟩
        exact ⟨[sample .semi], _, .ret hkind he rfl⟩
      · rintro e ts s rfl hs he
        exact .expect_and_then (by decide) hs (fun semi hsemi => ⟨[], _, .ret hkind he hsemi⟩)
          fun _ _ _ _ _ => .pure _
  | kwIf =>
    obtain ⟨_, hbraces⟩ := isStatement_braces
    refine head_decides (by decide) hs hkind (fun ts c hc => ⟨_, _, .ifThen hc hbraces⟩) ?_
    rintro c ts s hc hs
    refine .and_then_of_meets hs (h.statement s hs)
      (fun _ _ => (statements_sound d).statement s hs)
      (fun us u vs _ _ ⟨yes, hyes⟩ => ⟨vs, _, .ifThen hc hyes⟩) ?_
    rintro yes us s rfl hs ⟨hyes, hdangles⟩
    refine .accept_and_then (by decide) hs ?_ fun _ => .pure _
    rintro k s rfl hs hk
    have hclosed : yes.bare.dangles = false := by
      rw [dangles_bare]
      exact Bool.eq_false_iff.mpr fun hopen => hdangles hopen hk
    refine .then_pure hs ((h.statement s hs).mono hs ?_)
    rintro vs ⟨no, hno⟩
    exact ⟨[], _, by simpa using Statement.ifElse hc hyes hclosed hk hno⟩
  | kwWhile =>
    obtain ⟨_, hbraces⟩ := isStatement_braces
    refine head_decides (by decide) hs hkind (fun ts c hc => ⟨_, _, .loop hc hbraces⟩) ?_
    rintro c ts s hc hs
    refine .then_pure hs ((h.statement s hs).mono hs ?_)
    rintro us ⟨body, hbody⟩
    exact ⟨[], _, by simpa using Statement.loop hc hbody⟩
  | lbrace => exact (h.block s hs).mono hs fun ts hts => ⟨[], by simpa using hts.isStatement⟩
  | kwPrint =>
    refine .pop_and_then hs (by rw [hkind]; decide) ?_
    rintro t s rfl hs
    exact call_closed_decides (.inr hkind) hs
  | name => exact absurd hkind hname
  | _ => exact general_decides hs ⟨by rw [hkind]; decide, fun h => absurd h hname⟩

theorem statements_decide : ∀ d, StatementsDecide d := by
  intro d
  induction d with
  | zero => exact ⟨fun _ _ => .tooDeep, fun _ _ => .tooDeep⟩
  | succ d ih => exact ⟨fun s hs => statement_decides ih hs, fun s hs => block_decides ih hs⟩

/-! ## Programs -/

theorem name_reads : Reads 0 0 (expect .name) fun ts _ => IsName ts :=
  (expect_reads (by decide)).mono fun _ t h => ⟨t, h⟩

theorem name_decides (hs : s.Ended) : Decides (fun _ => expect .name) IsName s := by
  rw [← bind_pure (expect .name)]
  exact .expect_and_then (by decide) hs (fun u hu => ⟨[], u, rfl, hu⟩) fun _ _ _ _ _ => .pure _

theorem parameters_decide (hs : s.Ended) :
    Decides (fun _ => parenthesised (expect .name)) (ParenRow IsName) s :=
  parenthesised_decides name_reads (fun _ => name_decides) hs

theorem parameters_read (d : Nat) :
    Reads d 0 (parenthesised (expect .name)) fun ts _ => ParenRow IsName ts := by
  refine (parenthesised_reads (expect_reads (by decide))).mono ?_
  rintro ts names ⟨l, us, rfl, hp, parts, hsep, hparts, -⟩
  refine ⟨l, names.2, us, _, rfl, hp, hsep, ?_⟩
  exact List.forall_mem_map.mpr fun part hpart => ⟨part.2, hparts part hpart⟩

theorem definition_decides (d : Nat) (hs : s.Ended) :
    Decides (fun _ => definition d) IsDefinition s := by
  cases d with
  | zero => exact .tooDeep
  | succ d =>
    have hnone : ParenRow IsName [sample .lparen, sample .rparen] := parenRow_nil ⟨rfl, rfl⟩
    have hempty : IsBlock [sample .lbrace, sample .rbrace] := block_of_row rfl rfl plainRow_nil
    refine .expect_and_then (by decide) hs
      (fun k hk => ⟨sample .name :: _, definition_of_row hk rfl hnone hempty⟩) ?_
    rintro k s rfl hs hk
    refine .expect_and_then (by decide) hs
      (fun name hname => ⟨_, definition_of_row hk hname hnone hempty⟩) ?_
    rintro name s rfl hs hname
    refine .and_then hs (parameters_decide hs) (parameters_read d)
      (fun ts hts => ⟨_, definition_of_row hk hname hts hempty⟩) ?_
    rintro params ts s rfl hs hts
    refine .then_pure hs (((statements_decide d).block s hs).mono hs fun us hus => ⟨[], ?_⟩)
    rw [List.append_nil]
    exact definition_of_row hk hname hts hus

theorem item_decides (d : Nat) (s : TokenStream) (hs : s.Ended) :
    Decides (fun _ => item d) IsTop s := by
  refine .check_and_then hs (fun _ => ?_) fun _ => ?_
  · refine .then_pure hs ((definition_decides d hs).mono hs ?_)
    rintro ts ⟨f, hf⟩
    exact ⟨[], _, by simpa using Top.definition hf⟩
  · refine .then_pure hs (((statements_decide d).statement s hs).mono hs ?_)
    rintro ts ⟨a, ha⟩
    exact ⟨[], _, by simpa using Top.statement ha⟩

theorem item_reads_phrase (d : Nat) : Reads d 12 (item d) fun ts _ => IsTop ts :=
  (item_reads d).mono fun _ _ hi => ⟨_, hi⟩

theorem program_decides (d : Nat) (hs : s.Ended) :
    Decides (fun _ => program d) (PlainRow IsTop) s := by
  have hreads := item_reads_phrase d
  refine .front_and_then hs ?_
  refine .sized (q := fun n => do
    let items ← manyUntil (· == .eof) (item d) n
    let stop ← front
    let span := s.front.span.through stop.span
    return MiniLang.Program.mk span (Item.definitions items)
      (.block span (Item.statements items))) hs ?_
  refine .and_then_of_meets hs (manyUntil_decides rfl hreads ne_nil_of_isTop (item_decides d) s hs)
    (fun n _ => manyUntil_reads_row rfl hreads ne_nil_of_isTop n hs)
    (fun _ _ us _ _ hts => ⟨us, hts⟩) ?_
  rintro items ts s rfl hs -
  exact .front_and_then hs (.pure _)

end Parse

/-! ## The first wrong token -/

/-- A program may begin with these tokens. -/
def Grammar.Viable (ts : List Token) : Prop := ∃ us p, Program (ts ++ us) p

open Grammar

/-- Where the parser stops, the tokens before it and one of the wanted kind begin a program. -/
theorem viable_of_row {ts us : List Token} {u : Token} (h : PlainRow IsTop (ts ++ u :: us)) :
    Viable (ts ++ [u]) := by
  obtain ⟨p, hp⟩ := program_of_row (t := .endAt .origin) rfl h
  exact ⟨us ++ [.endAt .origin], p, by simpa using hp⟩

theorem Grammar.Viable.of_append {ts us : List Token} (h : Viable (ts ++ us)) : Viable ts := by
  obtain ⟨vs, p, hp⟩ := h
  exact ⟨us ++ vs, p, by simpa using hp⟩

/-- What stops the reader of programs on every stream that goes on with a token is in no program
    behind the tokens before it. -/
theorem not_viable_of_again {frames : Nat} {ts : List Token} {t : Token} {e : ParseError}
    (h : Again (fun _ => Parse.program frames) ts t fun _ => .error (.wrong e)) :
    ¬ Viable (ts ++ [t]) := by
  rintro ⟨us, p, hp⟩
  let r : TokenStream := ⟨t :: us, .endAt .origin⟩
  have hrun := h r (r.prepend ts).size rfl rfl (Nat.le_refl _)
  have htakes := program_takes hp frames ⟨[], .endAt .origin⟩
  have hstream : (⟨[], .endAt .origin⟩ : TokenStream).prepend (ts ++ [t] ++ us) = r.prepend ts := by
    simp [TokenStream.prepend, r]
  -- a program is read, unless the frames are used up; here it is neither
  rw [hstream] at htakes
  unfold Meets at htakes
  rw [hrun] at htakes
  cases htakes

theorem run_of_ofTokens_error {frames : Nat} {tokens : List Token} {halt : ParseHalt}
    (h : Program.ofTokens frames tokens = .error halt) :
    (Parse.program frames).run (.ofTokens tokens) = .error halt := by
  unfold Program.ofTokens at h
  cases hrun : (Parse.program frames).run (.ofTokens tokens) with
  | ok r =>
    rw [hrun] at h
    cases h
  | error halt' =>
    rw [hrun] at h
    cases h
    rfl

theorem ParseError.message_eq (e : ParseError) :
    e.message = "Expected " ++ e.wanted.label ++ " but got " ++ e.got.describe ∨
      e.wanted = .int ∧ e.message = "Expected expression but got " ++ e.got.describe := by
  cases e with
  | expected kind got => exact .inl rfl
  | expectedExpression got => exact .inr ⟨rfl, rfl⟩

/-- **The parser stops at the first wrong token.**  That is the token that the issue names and whose
    place it gives: the tokens before it begin a program, with it they begin none, and with any
    token of the wanted kind in its place they begin one again. -/
theorem parser_stops_at_first_wrong {frames : Nat} {tokens : List Token} {e : ParseError}
    (h : Token.EndsOnce tokens) (he : Program.ofTokens frames tokens = .error (.wrong e)) :
    ∃ before after, tokens = before ++ e.got :: after ∧
      (ParseHalt.wrong e).issue.span = some e.got.span ∧
      ((ParseHalt.wrong e).issue.message
          = "Expected " ++ e.wanted.label ++ " but got " ++ e.got.describe ∨
        e.wanted = .int ∧
          (ParseHalt.wrong e).issue.message = "Expected expression but got " ++ e.got.describe) ∧
      Viable before ∧ ¬ Viable (before ++ [e.got]) ∧
      ∀ u : Token, u.kind = e.wanted → Viable (before ++ [u]) := by
  have hs := TokenStream.ended_ofTokens tokens
  have hdecides := program_decides frames hs _ (Nat.le_refl _)
  unfold Meets at hdecides
  rw [run_of_ofTokens_error he] at hdecides
  obtain ⟨before, rest, hts, hgot, hfill, hagain⟩ := hdecides e rfl
  have hwanted : ∀ u : Token, u.kind = e.wanted → Viable (before ++ [u]) := by
    intro u hu
    obtain ⟨us, hus⟩ := hfill u hu
    exact viable_of_row hus
  have hunended : Unended before := by
    obtain ⟨us, hus⟩ := hfill (sample e.wanted) rfl
    obtain ⟨p, hp⟩ := program_of_row (t := .endAt .origin) rfl hus
    exact (unended_append.mp hp.unended).1
  obtain ⟨queue, sentinel⟩ := rest
  have hqueue : tokens = before ++ queue := congrArg TokenStream.queue hts
  obtain ⟨t, after, rfl⟩ : ∃ t after, queue = t :: after := by
    refine List.exists_cons_of_ne_nil ?_
    -- a program has an end marker, and there is none before the wrong token
    rintro rfl
    obtain ⟨body, stop, rfl, -, hstop⟩ := h
    rw [List.append_nil] at hqueue
    subst hqueue
    exact hunended stop (by simp) hstop
  have ht : t = e.got := hgot
  subst ht
  exact ⟨before, after, hqueue, rfl, e.message_eq, (hwanted (sample e.wanted) rfl).of_append,
    not_viable_of_again hagain, hwanted⟩

/-- The closing brace of `{ n = 1 }`, which stands where a semicolon should. -/
def earlyBrace : Token := ⟨.rbrace, "\x7d", .nowhere, none⟩

/-- The tokens of `{ n = 1 }`. -/
def openAssignment : List Token :=
  [⟨.lbrace, "\x7b", .nowhere, none⟩, ⟨.name, "n", .nowhere, none⟩, ⟨.assign, "=", .nowhere, none⟩,
   ⟨.int, "1", .nowhere, some 1⟩, earlyBrace, ⟨.eof, "", .nowhere, none⟩]

theorem openAssignment_wrong : Token.EndsOnce openAssignment ∧
    Program.ofTokens 40 openAssignment = .error (.wrong (.expected .semi earlyBrace)) ∧
    ∃ before after, openAssignment = before ++ earlyBrace :: after ∧ Viable before ∧
      ¬ Viable (before ++ [earlyBrace]) ∧
      ∀ u : Token, u.kind = .semi → Viable (before ++ [u]) := by
  have hends : Token.EndsOnce openAssignment :=
    ⟨openAssignment.dropLast, ⟨.eof, "", .nowhere, none⟩, rfl, by unfold Unended; decide, rfl⟩
  have hwrong : Program.ofTokens 40 openAssignment
      = .error (.wrong (.expected .semi earlyBrace)) := rfl
  obtain ⟨before, after, htokens, -, -, hviable, hnot, hwanted⟩ :=
    parser_stops_at_first_wrong hends hwrong
  exact ⟨hends, hwrong, before, after, htokens, hviable, hnot, hwanted⟩

end MiniLang
