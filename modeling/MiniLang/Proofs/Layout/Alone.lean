/-
  Statements and definitions stand alone.

  The parser looks beyond a statement in one place only: behind a branch it looks for an `else`.  So
  the tokens of a statement are read as the same statement in front of whatever is no `else`, be it
  the end of the input; and the same holds of the statements inside it.

  1. **Detaching** — `ReadsAlone p ts a`: in front of whatever is no `else`, `p` reads the tokens as
     `a`.  `p.Detaches s H`: where `p` ends well from `s`, it has taken tokens that it reads alone.
     As in `Decides`, one rule (`Detaches.behind`) carries this from the rest of a stream to the
     stream, and there is a rule for each primitive.
  2. **First tokens** — an expression begins where the first token of its phrase stands that is no
     opening parenthesis (`Expr.Begins`).
  3. **Statements** — the readers of statements detach, and so did those that read the statements
     directly inside.  The span of a statement runs to its last token from its first one, but for
     the opening parentheses of an expression.
  4. **Programs** — every statement and definition of a program is read from tokens of the program
     that stand alone (`Program.Holds.alone`), and those are a program of nothing else
     (`ofTokens_alone`).
-/
import MiniLang.Proofs.Layout.Nested
import MiniLang.Proofs.Parsing.FirstWrong
import MiniLang.Proofs.Parsing.MoreFrames

namespace MiniLang

namespace Parse

variable {α β : Type} {d : Nat} {s : TokenStream} {H H' : List Token → α → Prop}

/-! ## Detaching -/

/-- In front of whatever is no `else`, the tokens are read as `a`, and they alone. -/
def ReadsAlone (p : Parse α) (ts : List Token) (a : α) : Prop :=
  ∀ r : TokenStream, r.Ended → r.front.kind ≠ .kwElse → p.run (r.prepend ts) = .ok (a, r)

/-- Where the reader ends well, it has taken tokens that it reads alone, with `H`. -/
def Detaches (p : Parse α) (s : TokenStream) (H : List Token → α → Prop) : Prop :=
  p.Meets s (fun a s' => ∃ ts, s = s'.prepend ts ∧ ts ≠ [] ∧ ReadsAlone p ts a ∧ H ts a)
    fun _ => True

/-- The streams begin alike if some tokens stand in front. -/
theorem front_prepend_of_ne_nil {ts : List Token} (hts : ts ≠ []) (r r' : TokenStream) :
    (r.prepend ts).front = (r'.prepend ts).front := by
  cases ts with
  | nil => exact absurd rfl hts
  | cons t ts => rfl

theorem run_bind_of_ok {p : Parse α} {a : α} {s' : TokenStream} (h : p.run s = .ok (a, s'))
    (f : α → Parse β) : (p >>= f).run s = (f a).run s' := by
  rw [StateT.run_bind, h]
  rfl

theorem ReadsAlone.extends {p q : Parse α} {ts : List Token} {a : α} (h : ReadsAlone p ts a)
    (hpq : Extends p q) : ReadsAlone q ts a := by
  intro r hr helse
  rcases hpq (r.prepend ts) with hdeep | hsame
  · rw [h r hr helse] at hdeep
    cases hdeep
  · rw [hsame, h r hr helse]

/-- What is read alone is a phrase of whatever the reader reads. -/
theorem ReadsAlone.phrase {c N : Nat} {p : Parse α} {G : List Token → α → Prop} {ts : List Token}
    {a : α} (h : ReadsAlone p ts a) (hp : Reads c N p G) : G ts a := by
  let r : TokenStream := ⟨[], .endAt .origin⟩
  have hmeets := hp (r.prepend ts) rfl
  unfold Meets at hmeets
  rw [h r rfl nofun] at hmeets
  obtain ⟨us, hus, ha⟩ := hmeets
  rwa [eq_of_prepend_eq hus]

theorem run_front_bind (f : Token → Parse β) (s : TokenStream) :
    (front >>= f).run s = (f s.front).run s := rfl

namespace Detaches

theorem mono {p : Parse α} (h : p.Detaches s H)
    (hH : ∀ s' ts a, s = TokenStream.prepend s' ts → ts ≠ [] → ReadsAlone p ts a → H ts a →
      H' ts a) : p.Detaches s H' := by
  refine Meets.mono h ?_ fun _ h => h
  rintro a s' ⟨ts, hts, hne, hreads, ha⟩
  exact ⟨ts, hts, hne, hreads, hH s' ts a hts hne hreads ha⟩

/-- Once `us` is taken off, the reader `p` does what the reader `p'` does. -/
theorem behind {p p' : Parse α} (us : List Token) (hs : s.Ended)
    (h : p'.Detaches s fun ts => H (us ++ ts))
    (hrun : ∀ r : TokenStream, r.Ended → r.front = s.front →
      p.run (r.prepend us) = p'.run r) : p.Detaches (s.prepend us) H := by
  unfold Detaches Meets at h ⊢
  rw [hrun s hs rfl]
  cases hresult : p'.run s with
  | error halt => trivial
  | ok result =>
    obtain ⟨a, s'⟩ := result
    rw [hresult] at h
    obtain ⟨ts, rfl, hne, hreads, ha⟩ := h
    refine ⟨us ++ ts, by simp, by simp [hne], fun r hr helse => ?_, ha⟩
    rw [← TokenStream.prepend_prepend, hrun (r.prepend ts) hr (front_prepend_of_ne_nil hne r s')]
    exact hreads r hr helse

theorem congr {p p' : Parse α} (hs : s.Ended) (h : p'.Detaches s H)
    (hrun : ∀ r : TokenStream, r.Ended → r.front = s.front → p.run r = p'.run r) :
    p.Detaches s H := behind [] hs h hrun

theorem front_and_then {f : Token → Parse α} (hs : s.Ended) (h : (f s.front).Detaches s H) :
    (front >>= f).Detaches s H := by
  refine congr hs h ?_
  intro r _ hfront
  rw [← hfront]
  rfl

theorem check_and_then {k : Token.Kind} {f : Bool → Parse α} (hs : s.Ended)
    (hyes : s.front.kind = k → (f true).Detaches s H)
    (hno : s.front.kind ≠ k → (f false).Detaches s H) : (check k >>= f).Detaches s H := by
  have hrun : ∀ r : TokenStream, (check k >>= f).run r = (f (r.front.kind == k)).run r :=
    fun _ => rfl
  by_cases h : s.front.kind = k
  · refine congr hs (hyes h) ?_
    intro r _ hfront
    rw [hrun, hfront, beq_iff_eq.mpr h]
  · refine congr hs (hno h) ?_
    intro r _ hfront
    rw [hrun, hfront, beq_eq_false_iff_ne.mpr h]

theorem pop_and_then {f : Token → Parse α} (hs : s.Ended) (hfront : s.front.kind ≠ .eof)
    (hnext : ∀ t s', s = s'.prepend [t] → TokenStream.Ended s' →
      (f t).Detaches s' fun ts => H (t :: ts)) : (pop >>= f).Detaches s H := by
  have heq := TokenStream.eq_prepend_front hs hfront
  rw [heq]
  exact behind [s.front] hs (hnext _ _ heq hs) fun _ _ _ => rfl

theorem expect_and_then {k : Token.Kind} (hk : k ≠ .eof) {f : Token → Parse α} (hs : s.Ended)
    (hnext : ∀ t s', s = s'.prepend [t] → TokenStream.Ended s' → t.kind = k →
      (f t).Detaches s' fun ts => H (t :: ts)) : (expect k >>= f).Detaches s H := by
  by_cases h : s.front.kind = k
  · have heq := TokenStream.eq_prepend_front hs (h ▸ hk)
    rw [heq]
    exact behind [s.front] hs (hnext _ _ heq hs h) fun r _ _ => run_expect h f r
  · unfold Detaches
    rw [meets_bind, meets_expect, if_neg h]
    trivial

/-- The last token of a phrase. -/
theorem expect_then_pure {k : Token.Kind} (hk : k ≠ .eof) {f : Token → α} (hs : s.Ended)
    (hlast : ∀ t : Token, t.kind = k → H [t] (f t)) :
    (expect k >>= fun t => pure (f t)).Detaches s H := by
  unfold Detaches
  rw [meets_bind, meets_expect]
  split
  · next h =>
    have heq := TokenStream.eq_prepend_front hs (h ▸ hk)
    exact ⟨[s.front], heq, by simp, fun r _ _ => run_expect h _ r, hlast _ h⟩
  · trivial

/-- A reader that its tokens decide, and then going on from the rest. -/
theorem and_then {c : Nat} {p : Parse β} {G : List Token → β → Prop} {Q : List Token → Prop}
    {f : β → Parse α} (hs : s.Ended) (hp : Reads 0 c p G) (hdecides : Decides (fun _ => p) Q s)
    (hnext : ∀ b ts s', s = s'.prepend ts → TokenStream.Ended s' → G ts b →
      (f b).Detaches s' fun us => H (ts ++ us)) : (p >>= f).Detaches s H := by
  have hfirst := (hp s hs).and (hdecides s.size (Nat.le_refl _))
  unfold Meets at hfirst
  cases hrun : p.run s with
  | error halt =>
    unfold Detaches Meets
    rw [StateT.run_bind, hrun]
    trivial
  | ok result =>
    obtain ⟨b, s'⟩ := result
    rw [hrun] at hfirst
    obtain ⟨⟨ts, rfl, hb⟩, us, hus, hagain⟩ := hfirst
    obtain rfl := eq_of_prepend_eq hus
    refine behind ts hs (hnext b ts s' rfl hs hb) ?_
    intro r hr hfront
    exact run_bind_of_ok (hagain r _ hr hfront (Nat.le_refl _)) f

/-- What is read is put into another form, and nothing more is read. -/
theorem then_pure {p : Parse β} {f : β → α} (h : p.Detaches s fun ts b => H ts (f b)) :
    (p >>= fun b => pure (f b)).Detaches s H := by
  unfold Detaches
  rw [meets_bind]
  refine Meets.mono h ?_ fun _ h => h
  rintro b s' ⟨ts, hts, hne, hreads, hb⟩
  refine ⟨ts, hts, hne, fun r hr helse => ?_, hb⟩
  rw [run_bind_of_ok (hreads r hr helse)]
  rfl

/-- The token behind the next one decides, and both are taken. -/
theorem second_and_then {f : Token → Parse α}
    (h : (f (s.ahead 1)).Detaches s fun ts a => 1 < ts.length ∧ H ts a) :
    (second >>= f).Detaches s H := by
  have hrun : ∀ r : TokenStream, (second >>= f).run r = (f (r.ahead 1)).run r := fun _ => rfl
  unfold Detaches
  rw [meets_bind, meets_second]
  refine Meets.mono h ?_ fun _ h => h
  rintro a s' ⟨ts, rfl, hne, hreads, hlength, ha⟩
  obtain ⟨t, u, us, rfl⟩ : ∃ t u us, ts = t :: u :: us := by
    rcases ts with _ | ⟨t, _ | ⟨u, us⟩⟩
    · exact absurd rfl hne
    · exact absurd hlength (Nat.lt_irrefl 1)
    · exact ⟨t, u, us, rfl⟩
  refine ⟨t :: u :: us, rfl, hne, fun r hr helse => ?_, ha⟩
  rw [hrun, TokenStream.ahead_one_prepend_cons]
  exact hreads r hr helse

/-- A branch, which must be read again in front of its own `else` if it has one. -/
theorem else_and_then {p : Parse β} {Q : List Token → Prop} {G : List Token → β → Prop}
    {f : Bool → β → Parse α} {g : β → α} (hs : s.Ended) (hp : p.Detaches s G)
    (hdecides : Decides (fun _ => p) Q s) (hf : ∀ b, f false b = pure (g b))
    (hno : ∀ b ts, ts ≠ [] → ReadsAlone p ts b → G ts b → H ts (g b))
    (hyes : ∀ b t ts s', TokenStream.Ended s' → ts ≠ [] →
      ReadsAlone p ts b → G ts b → (f true b).Detaches s' fun us => H (ts ++ t :: us)) :
    (do let b ← p
        let more ← accept .kwElse
        f more b).Detaches s H := by
  have hfirst := Meets.and hp (hdecides s.size (Nat.le_refl _))
  unfold Meets at hfirst
  cases hrun : p.run s with
  | error halt =>
    unfold Detaches Meets
    rw [StateT.run_bind, hrun]
    trivial
  | ok result =>
    obtain ⟨b, s'⟩ := result
    rw [hrun] at hfirst
    obtain ⟨⟨ts, rfl, hne, halone, hb⟩, us, hus, hagain⟩ := hfirst
    obtain rfl := eq_of_prepend_eq hus
    by_cases helse : s'.front.kind = .kwElse
    · obtain ⟨t, s', rfl⟩ : ∃ t s'', s' = TokenStream.prepend s'' [t] :=
        ⟨_, _, TokenStream.eq_prepend_front hs (helse ▸ by decide)⟩
      have hnext := hyes b t ts s' hs hne halone hb
      rw [TokenStream.prepend_prepend]
      refine behind (ts ++ [t]) hs (by simpa using hnext) ?_
      intro r hr _
      rw [← TokenStream.prepend_prepend,
        run_bind_of_ok (hagain (r.prepend [t]) _ hr rfl (Nat.le_refl _))]
      exact run_accept_of_eq helse r
    · unfold Detaches Meets
      rw [run_bind_of_ok hrun, run_accept_of_ne helse, hf]
      refine ⟨ts, rfl, hne, fun r hr hother => ?_, hno b ts hne halone hb⟩
      rw [run_bind_of_ok (halone r hr hother), run_accept_of_ne hother, hf]
      rfl

end Detaches

end Parse

/-! ## First tokens -/

/-- An opening parenthesis. -/
def Token.opens (t : Token) : Bool := t.kind == .lparen

theorem Token.dropWhile_opens {t : Token} (ht : t.kind ≠ .lparen) (ts : List Token) :
    (t :: ts).dropWhile opens = t :: ts :=
  List.dropWhile_cons_of_neg (by simpa [opens] using ht)

/-- The expression begins where the first of the tokens does that is no opening parenthesis. -/
def Expr.Begins (e : Expr) (ts : List Token) : Prop :=
  ∃ first ∈ (ts.dropWhile Token.opens).head?, e.span.start = first.span.start

namespace Expr.Begins

variable {e : Expr} {t : Token} {ts : List Token}

theorem append (h : e.Begins ts) (us : List Token) : e.Begins (ts ++ us) := by
  obtain ⟨first, hfirst, hstart⟩ := h
  refine ⟨first, ?_, hstart⟩
  obtain ⟨rest, hrest⟩ := List.head?_eq_some_iff.mp hfirst
  rw [List.dropWhile_append, hrest]
  rfl

theorem of_token (ht : t.kind ≠ .lparen) (h : e.span.start = t.span.start) (ts : List Token) :
    e.Begins (t :: ts) := by
  refine ⟨t, ?_, h⟩
  rw [Token.dropWhile_opens ht]
  rfl

theorem of_opening (ht : t.kind = .lparen) (h : e.Begins ts) : e.Begins (t :: ts) := by
  rw [Begins, List.dropWhile_cons_of_pos (by simpa [Token.opens] using ht)]
  exact h

end Expr.Begins

namespace Parse

variable {α : Type} {d : Nat} {s : TokenStream} {ts : List Token}

/-- An expression begins at its phrase, and a call at its name. -/
theorem expressionRules_begin : ExpressionRules (fun ts e => e.Begins ts)
    fun t _ e => e.span.start = t.span.start where
  number t ht := .of_token (by rw [ht]; decide) rfl []
  name t ht := .of_token (by rw [ht]; decide) rfl []
  call t ts e ht he := by
    refine .of_token ?_ he ts
    rcases ht with ht | ht <;> rw [ht] <;> decide
  arguments _ _ _ _ _ _ _ := rfl
  parens l r ts e hl he := .of_opening hl (he.append [r])
  minus t ts e ht _ := .of_token (by rw [ht]; decide) rfl ts
  binary ts left op us right hleft _ := by
    obtain ⟨first, hfirst, hstart⟩ := hleft.append (op :: us)
    exact ⟨first, hfirst, hstart⟩

theorem expressions_begin (d : Nat) :
    ExpressionsDeliver (fun ts e => e.Begins ts) (fun t _ e => e.span.start = t.span.start) d :=
  expressionRules_begin.deliver d

/-! ## Statements -/

theorem delivers_of_detaches {p : Parse α} {H : List Token → α → Prop}
    (h : ∀ s : TokenStream, s.Ended → p.Detaches s H) :
    Delivers p fun ts a => ts ≠ [] ∧ ReadsAlone p ts a ∧ H ts a :=
  fun s hs => Meets.mono (h s hs) (fun _ _ ha => ha) fun _ _ _ => Nat.succ_pos _

/-- Each statement directly inside the statement is read from some of the tokens, which stand
    alone. -/
def Apart (d : Nat) (ts : List Token) (a : Stmt) : Prop :=
  ∀ b, (Node.stmt a).Child (.stmt b) → ∃ us, us <:+: ts ∧ ReadsAlone (statement d) us b

theorem ReadsAlone.more_frames {a : Stmt} (h : ReadsAlone (statement d) ts a) :
    ReadsAlone (statement (d + 1)) ts a := h.extends (statements_extend (Nat.le_succ d)).statement

theorem Apart.more_frames {a : Stmt} (h : Apart d ts a) : Apart (d + 1) ts a := by
  intro b hb
  obtain ⟨us, hus, halone⟩ := h b hb
  exact ⟨us, hus, halone.more_frames⟩

/-- The statement begins with the first of the tokens that is no opening parenthesis and ends with
    the last one, and the statements inside it stand alone. -/
structure Standing (d : Nat) (ts : List Token) (a : Stmt) : Prop where
  runsOver : a.span.RunsOver (ts.dropWhile Token.opens)
  apart : Apart d ts a

/-- A statement that begins with a token and ends with another one. -/
theorem Standing.between (ts : List Token) {t u : Token} {a : Stmt} (ht : t.kind ≠ .lparen)
    (hspan : a.span = t.span.through u.span) (happart : Apart d (t :: ts ++ [u]) a) :
    Standing d (t :: ts ++ [u]) a := by
  refine ⟨?_, happart⟩
  rw [List.cons_append, Token.dropWhile_opens ht, hspan, ← List.cons_append]
  exact (Span.runsOver_token t).through (Span.runsOver_token u) ts

/-- A statement that begins with a token and ends with its last part. -/
theorem Standing.to_last {t : Token} {us : List Token} {a last : Stmt} (ht : t.kind ≠ .lparen)
    (hspan : a.span = t.span.through last.span)
    (hlast : last.span.RunsOver (us.dropWhile Token.opens))
    (happart : Apart d (t :: ts ++ us) a) : Standing d (t :: ts ++ us) a := by
  refine ⟨?_, happart⟩
  obtain ⟨opening, hopening⟩ := List.dropWhile_suffix (l := us) Token.opens
  rw [List.cons_append, Token.dropWhile_opens ht, hspan, ← List.cons_append, ← hopening]
  have hthrough := (Span.runsOver_token t).through hlast (ts ++ opening)
  simpa using hthrough

theorem apart_of_no_child {a : Stmt} (h : ∀ b, ¬ (Node.stmt a).Child (.stmt b)) : Apart d ts a :=
  fun b hb => absurd hb (h b)

/-- The readers of statements detach. -/
structure StatementsDetach (d : Nat) : Prop where
  statement : ∀ s : TokenStream, s.Ended → (statement d).Detaches s (Standing d)
  block : ∀ s : TokenStream, s.Ended →
    (block d).Detaches s fun ts a => a.span.RunsOver ts ∧ Apart d ts a

/-- A call as a statement, after its name. -/
theorem call_closed_detaches {t : Token} (ht : t.kind = .name ∨ t.kind = .kwPrint)
    (hs : s.Ended) :
    (do let e ← callOf d t; closed e t.span : Parse Stmt).Detaches s fun ts =>
      Standing (d + 1) (t :: ts) := by
  refine .and_then hs ((expressions_begin d).callOf t) ((expressions_decide d).callOf t ht s hs) ?_
  rintro e ts s rfl hs -
  refine .expect_then_pure (by decide) hs fun semi _ => ?_
  refine .between ts ?_ rfl (apart_of_no_child nofun)
  rcases ht with ht | ht <;> rw [ht] <;> decide

/-- An expression as a statement. -/
theorem expression_closed_detaches (hs : s.Ended) :
    (do let e ← expression d; closed e e.span : Parse Stmt).Detaches s fun ts a =>
      1 < ts.length ∧ Standing (d + 1) ts a := by
  refine .and_then hs (expressions_begin d).expression ((expressions_decide d).expression s hs) ?_
  rintro e ts s rfl hs ⟨first, hfirst, hstart⟩
  obtain ⟨rest, hrest⟩ := List.head?_eq_some_iff.mp hfirst
  refine .expect_then_pure (by decide) hs fun semi _ => ⟨?_, ?_, apart_of_no_child nofun⟩
  · have hne : ts ≠ [] := by
      rintro rfl
      cases hrest
    have hpos := List.length_pos_iff.mpr hne
    rw [List.length_append, List.length_singleton]
    omega
  · have hspan : e.span.through semi.span = first.span.through semi.span := by
      rw [Span.through, hstart]
      rfl
    show (e.span.through semi.span).RunsOver _
    rw [List.dropWhile_append, hrest, hspan]
    exact (Span.runsOver_token first).through (Span.runsOver_token semi) rest

/-- A keyword that is known to stand in front, and a condition in parentheses. -/
theorem head_detaches {f : Expr → Parse α} {H : List Token → α → Prop} (hs : s.Ended)
    (hfront : s.front.kind ≠ .eof)
    (hnext : ∀ c ts s', TokenStream.Ended s' →
      (f c).Detaches s' fun us => H (s.front :: ts ++ us)) :
    (do let _ ← pop
        let _ ← expect .lparen
        let c ← expression d
        let _ ← expect .rparen
        f c).Detaches s H := by
  refine .pop_and_then hs hfront ?_
  rintro t s rfl hs
  refine .expect_and_then (by decide) hs ?_
  rintro l s rfl hs -
  refine .and_then hs (expressions_begin d).expression ((expressions_decide d).expression s hs) ?_
  rintro c ts s rfl hs -
  refine .expect_and_then (by decide) hs ?_
  rintro r s rfl hs -
  refine (hnext c (l :: ts ++ [r]) s hs).mono ?_
  intro _ us a _ _ _ ha
  simpa using ha

theorem statement_detaches (h : StatementsDetach d) (hs : s.Ended) :
    (statement (d + 1)).Detaches s (Standing (d + 1)) := by
  have hexpr := (expressions_begin d).expression
  have hdecides := (expressions_decide d).expression
  have hgeneral := (expression_closed_detaches (d := d) hs).mono fun _ _ _ _ _ _ ha => ha.2
  refine .front_and_then hs ?_
  cases hkind : s.front.kind with
  | kwReturn =>
    have ht : s.front.kind ≠ .lparen := by rw [hkind]; decide
    refine .pop_and_then hs (by rw [hkind]; decide) ?_
    rintro t s rfl hs
    refine .check_and_then hs (fun _ => ?_) fun _ => ?_
    · refine .expect_then_pure (by decide) hs fun semi _ => ?_
      exact .between [] ht rfl (apart_of_no_child nofun)
    · refine .and_then hs hexpr (hdecides s hs) ?_
      rintro e ts s rfl hs -
      refine .expect_then_pure (by decide) hs fun semi _ => ?_
      exact .between ts ht rfl (apart_of_no_child nofun)
  | kwIf =>
    have ht : s.front.kind ≠ .lparen := by rw [hkind]; decide
    refine head_detaches hs (by rw [hkind]; decide) ?_
    intro c ts rest hrest
    refine .else_and_then hrest (h.statement rest hrest)
      ((statements_decide d).statement rest hrest) (fun _ => rfl) ?_ ?_
    · intro yes us _ halone hyes
      refine .to_last ht rfl hyes.runsOver ?_
      intro b hb
      cases hb with
      | yes => exact ⟨us, (List.suffix_append _ us).isInfix, halone.more_frames⟩
    · intro yes k us rest hrest _ halone _
      refine .then_pure ((h.statement rest hrest).mono ?_)
      intro _ vs no _ _ halone' hno
      have happart : Apart (d + 1) (s.front :: (ts ++ us ++ [k]) ++ vs)
          (.ifElse (s.front.span.through no.span) c yes (some no)) := by
        intro b hb
        cases hb with
        | yes => exact ⟨us, ⟨s.front :: ts, k :: vs, by simp⟩, halone.more_frames⟩
        | no => exact ⟨vs, (List.suffix_append _ vs).isInfix, halone'.more_frames⟩
      have hstanding := Standing.to_last ht rfl hno.runsOver happart
      simpa using hstanding
  | kwWhile =>
    have ht : s.front.kind ≠ .lparen := by rw [hkind]; decide
    refine head_detaches hs (by rw [hkind]; decide) ?_
    intro c ts rest hrest
    refine .then_pure ((h.statement rest hrest).mono ?_)
    intro _ us body _ _ halone hbody
    refine .to_last ht rfl hbody.runsOver ?_
    intro b hb
    cases hb with
    | body => exact ⟨us, (List.suffix_append _ us).isInfix, halone.more_frames⟩
  | lbrace =>
    refine (h.block s hs).mono ?_
    rintro s' ts a rfl hne - ⟨hspan, happart⟩
    obtain ⟨l, ts, rfl⟩ := List.exists_cons_of_ne_nil hne
    have hl : l.kind ≠ .lparen := by
      have hl : l.kind = .lbrace := hkind
      rw [hl]
      decide
    refine ⟨?_, happart.more_frames⟩
    rwa [Token.dropWhile_opens hl]
  | kwPrint =>
    refine .pop_and_then hs (by rw [hkind]; decide) ?_
    rintro t s rfl hs
    exact call_closed_detaches (.inr hkind) hs
  | name =>
    have ht : s.front.kind ≠ .lparen := by rw [hkind]; decide
    refine .second_and_then ?_
    cases hsecond : (s.ahead 1).kind with
    | assign =>
      refine .pop_and_then hs (by rw [hkind]; decide) ?_
      rintro t s rfl hs
      rw [TokenStream.ahead_one_prepend_cons] at hsecond
      refine .pop_and_then hs (by rw [← TokenStream.prepend_nil s, hsecond]; decide) ?_
      rintro eq s rfl hs
      refine .and_then hs hexpr (hdecides s hs) ?_
      rintro e ts s rfl hs -
      refine .expect_then_pure (by decide) hs fun semi _ => ⟨by simp, ?_⟩
      exact .between (eq :: ts) ht rfl (apart_of_no_child nofun)
    | lparen =>
      refine .pop_and_then hs (by rw [hkind]; decide) ?_
      rintro t s rfl hs
      refine (call_closed_detaches (.inl hkind) hs).mono ?_
      intro _ ts a _ hne _ ha
      exact ⟨Nat.succ_lt_succ (List.length_pos_iff.mpr hne), ha⟩
    | _ => exact expression_closed_detaches hs
  | _ => exact hgeneral

theorem block_detaches (h : StatementsDetach d) (hs : s.Ended) :
    (block (d + 1)).Detaches s fun ts a => a.span.RunsOver ts ∧ Apart (d + 1) ts a := by
  refine .expect_and_then (by decide) hs ?_
  rintro l s rfl hs -
  let ends : Token.Kind → Bool := fun k => k == .rbrace || k == .eof
  have hreads : Delivers (do manyUntil ends (statement d) (← get).size)
      (Several fun ts a => ts ≠ [] ∧ ReadsAlone (statement d) ts a ∧ Standing d ts a) := by
    intro s hs
    rw [meets_bind, meets_get]
    refine (manyUntil_meets rfl (delivers_of_detaches h.statement) (fun _ _ ha => ha.1) _ s hs).mono
      ?_ fun halt h => h.trans (by omega)
    rintro body s' ⟨hbody, -⟩
    exact hbody
  have hdecides : Decides (manyUntil ends (statement d)) _ s :=
    manyUntil_decides rfl (statement_reads_phrase d) Grammar.ne_nil_of_isStatement
      (statements_decide d).statement s hs
  show (do let body ← (do manyUntil ends (statement d) (← get).size)
           let r ← expect .rbrace
           return Stmt.block (l.span.through r.span) body : Parse Stmt).Detaches s _
  refine .and_then hs hreads (hdecides.sized hs) ?_
  rintro body ts s rfl hs ⟨parts, rfl, hparts, rfl⟩
  refine .expect_then_pure (by decide) hs fun r _ => ⟨?_, ?_⟩
  · exact (Span.runsOver_token l).through (Span.runsOver_token r) _
  · intro b hb
    cases hb with
    | member hb =>
      obtain ⟨part, hpart, rfl⟩ := List.mem_map.mp hb
      obtain ⟨-, halone, -⟩ := hparts part hpart
      have hinfix := (Token.InRow.flatten (parts.map (·.1))).infix_of_mem _
        (List.mem_map_of_mem hpart)
      exact ⟨part.1, hinfix.trans (List.infix_append [l] _ [r]), halone.more_frames⟩

theorem statements_detach : ∀ d, StatementsDetach d := by
  intro d
  induction d with
  | zero => exact ⟨fun _ _ => trivial, fun _ _ => trivial⟩
  | succ d ih => exact ⟨fun _ hs => statement_detaches ih hs, fun _ hs => block_detaches ih hs⟩

/-! ## Definitions -/

/-- Something directly inside an item. -/
inductive Item.Child : Item → Item → Prop
  | body {f : FunctionDef} : Child (.definition f) (.statement f.body)
  | inside {a b : Stmt} : (Node.stmt a).Child (.stmt b) → Child (.statement a) (.statement b)

/-- The item begins with the first of the tokens that is no opening parenthesis and ends with the
    last one, and what is inside it stands alone. -/
structure Item.Standing (d : Nat) (ts : List Token) (i : Item) : Prop where
  runsOver : i.span.RunsOver (ts.dropWhile Token.opens)
  apart : ∀ j, i.Child j → ∃ us, us <:+: ts ∧ ReadsAlone (item d) us j

/-- What begins with no `func` is read as a statement. -/
theorem readsAlone_item {a : Stmt} (h : ReadsAlone (statement d) ts a) :
    ReadsAlone (item d) ts (.statement a) := by
  obtain ⟨t, us, rfl, ht⟩ := (h.phrase (statements_sound d).statement.reads).first
  have hfunc : t.kind ≠ .kwFunc := by
    intro hfunc
    rw [hfunc] at ht
    exact absurd ht (by decide)
  intro r hr helse
  show (do if (t.kind == .kwFunc) = true then return Item.definition (← definition d)
           else return Item.statement (← statement d) : Parse Item).run _ = _
  rw [if_neg (fun h => hfunc (beq_iff_eq.mp h)), run_bind_of_ok (h r hr helse)]
  rfl

/-- A block is read as a statement. -/
theorem readsAlone_block {a : Stmt} (h : ReadsAlone (block d) ts a) :
    ReadsAlone (statement (d + 1)) ts a := by
  have hbrace : ∀ {ts b}, Grammar.Statement ts b → (∃ span body, b = .block span body) →
      ∃ l us, ts = l :: us ∧ l.kind = .lbrace := by
    rintro ts b hb ⟨span, body, rfl⟩
    cases hb with
    | block hl => exact ⟨_, _, rfl, hl⟩
  obtain ⟨hphrase, span, body, rfl⟩ := h.phrase (statements_sound d).block
  obtain ⟨l, us, rfl, hl⟩ := hbrace hphrase ⟨_, _, Stmt.bare_block span body⟩
  intro r hr helse
  rw [statement, run_front_bind, TokenStream.front_prepend_cons, hl]
  exact h r hr helse

theorem definition_detaches (d : Nat) (hs : s.Ended) :
    (definition d).Detaches s fun ts f => f.span.RunsOver (ts.dropWhile Token.opens) ∧
      ∃ us, us <:+: ts ∧ ReadsAlone (statement d) us f.body := by
  rcases d with _ | d
  · trivial
  refine .expect_and_then (by decide) hs ?_
  rintro k s rfl hs hk
  have hnone : k.kind ≠ .lparen := by rw [hk]; decide
  refine .expect_and_then (by decide) hs ?_
  rintro name s rfl hs -
  refine .and_then hs (parameters_read 0) (parameters_decide hs) ?_
  rintro params ts s rfl hs -
  refine .then_pure (((statements_detach d).block s hs).mono ?_)
  rintro _ us body - - halone ⟨hspan, -⟩
  refine ⟨?_, us, List.suffix_append (k :: name :: ts) us |>.isInfix, readsAlone_block halone⟩
  rw [Token.dropWhile_opens hnone]
  exact (Span.runsOver_token k).through hspan (name :: ts)

theorem item_detaches (d : Nat) (hs : s.Ended) : (item d).Detaches s (Item.Standing d) := by
  refine .check_and_then hs (fun _ => ?_) fun _ => ?_
  · refine .then_pure ((definition_detaches d hs).mono ?_)
    rintro _ ts f - - - ⟨hspan, us, hus, halone⟩
    refine ⟨hspan, fun j hj => ?_⟩
    cases hj with
    | body => exact ⟨us, hus, readsAlone_item halone⟩
  · refine .then_pure (((statements_detach d).statement s hs).mono ?_)
    intro _ ts a _ _ _ ha
    refine ⟨ha.runsOver, fun j hj => ?_⟩
    cases hj with
    | inside hchild =>
      obtain ⟨us, hus, halone⟩ := ha.apart _ hchild
      exact ⟨us, hus, readsAlone_item halone⟩

end Parse

/-! ## Programs -/

open Parse (Item ReadsAlone)

/-- A definition or a statement of a program, at any depth. -/
inductive Program.Holds (p : Program) : Item → Prop
  | definition {f} : f ∈ p.functions → Holds p (.definition f)
  | top {a} : a ∈ p.body.inside → Holds p (.statement a)
  | child {i j} : Holds p i → i.Child j → Holds p j

/-- The program of nothing but the item. -/
def Parse.Item.alone (i : Item) (span : Span) : Program :=
  ⟨span, Item.definitions [i], .block span (Item.statements [i])⟩

namespace Program

variable {p : Program} {frames : Nat} {tokens : List Token}

/-- What stands at the top of a program is read from some of its tokens, which stand alone. -/
theorem exists_parts (hp : ofTokens frames tokens = .ok p) :
    ∃ parts : List (List Token × Item),
      (∀ a ∈ parts, a.1 <:+: tokens ∧ ReadsAlone (Parse.item frames) a.1 a.2) ∧
        p.functions = Item.definitions (parts.map (·.2)) ∧
        p.body = .block p.span (Item.statements (parts.map (·.2))) := by
  have hdelivers := Parse.program_delivers
    (Parse.delivers_of_detaches fun _ => Parse.item_detaches frames) (fun _ _ hi => hi.1)
    (TokenStream.ended_ofTokens tokens)
  refine good_of_ofTokens (fun p => ∃ parts : List (List Token × Item),
    (∀ a ∈ parts, a.1 <:+: tokens ∧ ReadsAlone (Parse.item frames) a.1 a.2) ∧
    p.functions = Item.definitions (parts.map (·.2)) ∧
    p.body = .block p.span (Item.statements (parts.map (·.2)))) ?_ hp
  refine hdelivers.mono ?_ fun _ _ => trivial
  rintro p s ⟨-, parts, hparts, hitems, -, hfunctions, hbody⟩
  refine ⟨parts, fun a ha => ⟨?_, (hitems a ha).2.1⟩, hfunctions, hbody⟩
  have htokens : tokens = (parts.map (·.1)).flatten ++ s.queue := congrArg TokenStream.queue hparts
  have hinfix := (Token.InRow.flatten (parts.map (·.1))).infix_of_mem _ (List.mem_map_of_mem ha)
  rw [htokens]
  exact hinfix.trans (List.prefix_append _ s.queue).isInfix

/-- Every item of a program is read from some of its tokens, which stand alone. -/
theorem Holds.alone {i : Item} (hi : p.Holds i) (hp : ofTokens frames tokens = .ok p) :
    ∃ ts, ts <:+: tokens ∧ ReadsAlone (Parse.item frames) ts i := by
  obtain ⟨parts, hparts, hfunctions, hbody⟩ := exists_parts hp
  have hmem : ∀ i ∈ parts.map (·.2), ∃ ts, ts <:+: tokens ∧ ReadsAlone (Parse.item frames) ts i :=
    List.forall_mem_map.mpr fun a ha => ⟨a.1, hparts a ha⟩
  induction hi with
  | definition hf =>
    rw [hfunctions, Parse.mem_definitions] at hf
    exact hmem _ hf
  | top ha =>
    rw [hbody, Stmt.inside, Parse.mem_statements] at ha
    exact hmem _ ha
  | child _ hchild ih =>
    obtain ⟨ts, hts, halone⟩ := ih
    obtain ⟨-, -, hstanding⟩ := halone.phrase
      (Parse.delivers_of_detaches fun _ => Parse.item_detaches frames)
    obtain ⟨us, hus, halone⟩ := hstanding.apart _ hchild
    exact ⟨us, hus.trans hts, halone⟩

/-- The tokens of an item and an end marker are a program of nothing but the item. -/
theorem ofTokens_alone {i : Item} {ts : List Token} (h : ReadsAlone (Parse.item frames) ts i)
    {first stop : Token} (hfirst : ts.head? = some first) (hstop : stop.kind = .eof) :
    ofTokens frames (ts ++ [stop]) = .ok (i.alone (first.span.through stop.span)) := by
  have hunended := (h.phrase (Parse.item_reads frames)).unended
  obtain ⟨rest, rfl⟩ := List.head?_eq_some_iff.mp hfirst
  have hne : first.kind ≠ .eof := hunended first List.mem_cons_self
  let r : TokenStream := ⟨[stop], stop⟩
  have hstream : TokenStream.ofTokens (first :: rest ++ [stop]) = r.prepend (first :: rest) := by
    have hsentinel : TokenStream.sentinelOf (first :: rest ++ [stop]) = stop := by
      rw [TokenStream.sentinelOf, List.getLast?_concat]
      exact if_pos hstop
    rw [TokenStream.ofTokens, hsentinel]
    rfl
  have hend : r.front.kind = .eof := hstop
  have hitem := h r hstop (by rw [hend]; decide)
  -- one round takes the item, and the next one meets the end marker
  have hnone : ∀ n, (Parse.manyUntil (· == .eof) (Parse.item frames) (n + 1)).run r =
      .ok ([], r) := by
    intro n
    rw [Parse.manyUntil, Parse.run_front_bind, if_pos (beq_iff_eq.mpr hend)]
    rfl
  have hone : ∀ n, (Parse.manyUntil (· == .eof) (Parse.item frames) (n + 2)).run
      (r.prepend (first :: rest)) = .ok ([i], r) := by
    intro n
    rw [Parse.manyUntil, Parse.run_front_bind, TokenStream.front_prepend_cons,
      if_neg (fun h => hne (beq_iff_eq.mp h)), Parse.run_bind_of_ok hitem,
      Parse.run_bind_of_ok (hnone n)]
    rfl
  have hprogram : (Parse.program frames).run (r.prepend (first :: rest)) =
      .ok (i.alone (first.span.through stop.span), r) := by
    have hget : (get : Parse TokenStream).run (r.prepend (first :: rest)) =
        .ok (r.prepend (first :: rest), r.prepend (first :: rest)) := rfl
    have hsize : (r.prepend (first :: rest)).size = rest.length + 2 := by
      simp [r, TokenStream.size, TokenStream.prepend]
    rw [Parse.program, Parse.run_front_bind, TokenStream.front_prepend_cons,
      Parse.run_bind_of_ok hget, hsize, Parse.run_bind_of_ok (hone _)]
    rfl
  rw [ofTokens, hstream, hprogram]

end Program

end MiniLang
