/-
  What a reader does depends on no token beyond the first one that it leaves.

  A reader that ends has taken some tokens and seen the next one.  On every other stream that
  begins with the same tokens it ends in the same way, so the tokens behind have no part in it.  And
  where it stops at a wrong token, the tokens that it took could have gone on to a phrase, with a
  token of the kind that was wanted in the place of the wrong one.

  1. **The judgement** — `Decides q Q s`: this is so from the stream `s`, for phrases with `Q`.
     `q` is a family of readers because a repetition is bounded by a number that differs from one
     stream to the other; every bound that is no less than the queue will do.
  2. **Composition** — `Decides.behind` carries the judgement from the rest of a stream to the
     stream, if the family does the same on both once some tokens are taken off.  All other rules
     come from it: `congr` where the token in front decides what is read, `cons` behind one token,
     `and_then` behind a reader.
  3. **Single tokens** — one rule for each primitive.
-/
import MiniLang.Issue
import MiniLang.Proofs.Parsing.Sound

namespace MiniLang

/-- The kind that should have stood in the place of the wrong token; for an expression this is a
    number, which is one by itself. -/
def ParseError.wanted : ParseError → Token.Kind
  | expected kind _ => kind
  | expectedExpression _ => .int

namespace Parse

open Grammar

variable {α β : Type} {Q P : List Token → Prop} {s : TokenStream}

/-! ## The judgement -/

/-- In front of whatever begins with `t`, the tokens `ts` lead to the same result. -/
def Again (q : Nat → Parse α) (ts : List Token) (t : Token)
    (result : TokenStream → Except ParseHalt (α × TokenStream)) : Prop :=
  ∀ (r : TokenStream) n, r.Ended → r.front = t → (r.prepend ts).size ≤ n →
    (q n).run (r.prepend ts) = result r

/-- The readers stop at a token that is wrong whatever follows it, and behind tokens that a wanted
    one would continue. -/
def Stuck (q : Nat → Parse α) (Q : List Token → Prop) (s : TokenStream) (e : ParseError) : Prop :=
  ∃ (ts : List Token) (rest : TokenStream), s = rest.prepend ts ∧ rest.front = e.got ∧
    (∀ u : Token, u.kind = e.wanted → ∃ vs, Q (ts ++ u :: vs)) ∧
    Again q ts rest.front fun _ => .error (.wrong e)

/-- From `s` the readers end in a way that the tokens up to the next one decide. -/
def Decides (q : Nat → Parse α) (Q : List Token → Prop) (s : TokenStream) : Prop :=
  ∀ n, s.size ≤ n → (q n).Meets s
    (fun a rest => ∃ ts, s = rest.prepend ts ∧ Again q ts rest.front fun r => .ok (a, r))
    (fun halt => ∀ e, halt = .wrong e → Stuck q Q s e)

/-- Streams that go on alike begin alike. -/
theorem front_prepend_congr {r rest : TokenStream} (h : r.front = rest.front) (ts : List Token) :
    (r.prepend ts).front = (rest.prepend ts).front := by
  cases ts with
  | nil => exact h
  | cons t ts => rfl

/-- The tokens that were taken off a stream are determined by what is left. -/
theorem eq_of_prepend_eq {rest : TokenStream} {ts us : List Token}
    (h : rest.prepend ts = rest.prepend us) : ts = us :=
  List.append_cancel_right (congrArg TokenStream.queue h)

theorem run_accept_of_eq {k : Token.Kind} {f : Bool → Parse β} {t : Token} (ht : t.kind = k)
    (r : TokenStream) : (accept k >>= f).run (r.prepend [t]) = (f true).run r := by
  have haccept : (accept k).run (r.prepend [t]) = .ok (true, r) := by
    show (if (t.kind == k) = true then _ else _ : Parse Bool).run _ = _
    rw [if_pos (beq_iff_eq.mpr ht)]
    rfl
  rw [StateT.run_bind, haccept]
  rfl

theorem run_accept_of_ne {k : Token.Kind} {f : Bool → Parse β} {r : TokenStream}
    (hr : r.front.kind ≠ k) : (accept k >>= f).run r = (f false).run r := by
  have haccept : (accept k).run r = .ok (false, r) := by
    show (if (r.front.kind == k) = true then _ else _ : Parse Bool).run _ = _
    rw [if_neg fun hb => hr (beq_iff_eq.mp hb)]
    rfl
  rw [StateT.run_bind, haccept]
  rfl

theorem run_expect {k : Token.Kind} {t : Token} (ht : t.kind = k) (f : Token → Parse β)
    (r : TokenStream) : (expect k >>= f).run (r.prepend [t]) = (f t).run r := by
  have hexpect : (expect k).run (r.prepend [t]) = .ok (t, r) := by
    show (if t.kind = k then _ else _ : Parse Token).run _ = _
    rw [if_pos ht]
    rfl
  rw [StateT.run_bind, hexpect]
  rfl

/-- A chain ends in front of what is no operator of it. -/
theorem run_chain_of_other {ops : Token.Kind → Bool} {operand : Parse Expr} {r : TokenStream}
    (hr : ops r.front.kind = false) (n : Nat) (left : Expr) :
    (chain ops operand n left).run r = .ok (left, r) := by
  cases n with
  | zero => rfl
  | succ n =>
    show (if ops r.front.kind = true then _ else _ : Parse Expr).run r = _
    rw [hr]
    rfl

/-- A chain goes on behind an operator. -/
theorem run_chain_of_operator {ops : Token.Kind → Bool} {operand : Parse Expr} {op : Token}
    (hop : ops op.kind = true) (n : Nat) (left : Expr) (r : TokenStream) :
    (chain ops operand (n + 1) left).run (r.prepend [op]) = (do
      let right ← operand
      chain ops operand n (.binary (left.span.through right.span) left op.kind right)
        : Parse Expr).run r := by
  show (if ops op.kind = true then _ else _ : Parse Expr).run _ = _
  rw [if_pos hop]
  rfl

/-- A phrase that goes on behind a token, and then goes on as another one. -/
theorem exists_longer {ts us : List Token} {u : Token} (h : ∃ vs, Q (ts ++ u :: us ++ vs)) :
    ∃ vs, Q (ts ++ u :: vs) := by
  obtain ⟨vs, hvs⟩ := h
  exact ⟨us ++ vs, by simpa using hvs⟩

namespace Decides

/-! ## Composition -/

/-- Once `us` is taken off, the readers `q` do what the readers `q'` do. -/
theorem behind {q q' : Nat → Parse α} (us : List Token) {rest : TokenStream} (hs : rest.Ended)
    (h : Decides q' P rest) (hP : ∀ ts, P ts → ∃ vs, Q (us ++ ts ++ vs))
    (hrun : ∀ (r : TokenStream) n, r.Ended → r.front = rest.front → (r.prepend us).size ≤ n →
      ∃ m, r.size ≤ m ∧ (q n).run (r.prepend us) = (q' m).run r) :
    Decides q Q (rest.prepend us) := by
  have hagain : ∀ {ts rest' result}, rest = TokenStream.prepend rest' ts →
      Again q' ts rest'.front result → Again q (us ++ ts) rest'.front result := by
    rintro ts rest' result rfl hagain r n hr hfront hn
    rw [← TokenStream.prepend_prepend] at hn ⊢
    obtain ⟨m, hm, heq⟩ := hrun (r.prepend ts) n hr (front_prepend_congr hfront ts) hn
    rw [heq]
    exact hagain r m hr hfront hm
  have hprepend : ∀ {ts rest'}, rest = TokenStream.prepend rest' ts →
      rest.prepend us = rest'.prepend (us ++ ts) := by
    rintro ts rest' rfl
    exact TokenStream.prepend_prepend rest' us ts
  intro n hn
  obtain ⟨m, hm, heq⟩ := hrun rest n hs rfl hn
  have hq := h m hm
  unfold Meets at hq ⊢
  rw [heq]
  cases hresult : (q' m).run rest with
  | ok r =>
    rw [hresult] at hq
    obtain ⟨ts, hts, hq⟩ := hq
    exact ⟨us ++ ts, hprepend hts, hagain hts hq⟩
  | error halt =>
    rw [hresult] at hq
    intro e he
    obtain ⟨ts, rest', hts, hgot, hfill, hq⟩ := hq e he
    refine ⟨us ++ ts, rest', hprepend hts, hgot, ?_, hagain hts hq⟩
    intro u hu
    obtain ⟨vs, hvs⟩ := hfill u hu
    obtain ⟨ws, hws⟩ := hP _ hvs
    exact exists_longer ⟨ws, by simpa using hws⟩

/-- The readers may be replaced by others that do the same on every stream with this front. -/
theorem congr {q q' : Nat → Parse α} (hs : s.Ended) (h : Decides q' Q s)
    (hrun : ∀ (r : TokenStream) n, r.Ended → r.front = s.front → r.size ≤ n →
      (q n).run r = (q' n).run r) : Decides q Q s := by
  refine behind [] hs h (fun ts hts => ⟨[], by simpa using hts⟩) ?_
  intro r n hr hfront hn
  exact ⟨n, hn, hrun r n hr hfront hn⟩

/-- Phrases of one kind may begin phrases of another. -/
theorem mono {q : Nat → Parse α} (hs : s.Ended) (h : Decides q P s)
    (hP : ∀ ts, P ts → ∃ us, Q (ts ++ us)) : Decides q Q s :=
  behind [] hs h hP fun _ n _ _ hn => ⟨n, hn, rfl⟩

/-- A bound that is larger than it has to be. -/
theorem shift {q : Nat → Parse α} (hs : s.Ended) (h : Decides q Q s) (k : Nat) :
    Decides (fun n => q (n + k)) Q s :=
  behind [] hs h (fun ts hts => ⟨[], by simpa using hts⟩)
    fun _ n _ _ hn => ⟨n + k, Nat.le_add_right_of_le hn, rfl⟩

/-- A bound that is the size of the queue. -/
theorem sized {q : Nat → Parse α} (hs : s.Ended) (h : Decides q Q s) :
    Decides (fun _ => (do q (← get).size : Parse α)) Q s :=
  behind [] hs h (fun ts hts => ⟨[], by simpa using hts⟩)
    fun r _ _ _ _ => ⟨r.size, Nat.le_refl _, rfl⟩

/-- Behind a token that is taken for sure. -/
theorem cons {q q' : Nat → Parse α} {t : Token} {rest : TokenStream} (hs : rest.Ended)
    (h : Decides q' (fun ts => Q (t :: ts)) rest)
    (hrun : ∀ (r : TokenStream) n, r.Ended → r.front = rest.front → r.size ≤ n →
      (q (n + 1)).run (r.prepend [t]) = (q' n).run r) : Decides q Q (rest.prepend [t]) := by
  refine behind [t] hs h (fun ts hts => ⟨[], by simpa using hts⟩) ?_
  intro r n hr hfront hn
  rw [TokenStream.size_prepend, List.length_singleton] at hn
  obtain ⟨n, rfl⟩ : ∃ m, n = m + 1 := ⟨n - 1, by omega⟩
  exact ⟨n, by omega, hrun r n hr hfront (by omega)⟩

/-- One reader behind another.  `G` is what is known of the tokens that the first one takes, and
    wherever it could have gone on to a phrase of its own, the whole could have as well. -/
theorem and_then_of_meets {q : Nat → Parse α} {g : Nat → α → Parse β}
    {G : List Token → α → TokenStream → Prop} {bad : ParseHalt → Prop} (hs : s.Ended)
    (hq : Decides q P s)
    (hmeets : ∀ n, s.size ≤ n →
      (q n).Meets s (fun a rest => ∃ ts, s = rest.prepend ts ∧ G ts a rest) bad)
    (hP : ∀ (ts : List Token) (u : Token) (us : List Token) (rest : TokenStream),
      s = rest.prepend ts → P (ts ++ u :: us) → ∃ vs, Q (ts ++ u :: vs))
    (hg : ∀ a ts rest, s = rest.prepend ts → rest.Ended → G ts a rest →
      Decides (fun n => g (n + ts.length) a) (fun us => Q (ts ++ us)) rest) :
    Decides (fun n => q n >>= g n) Q s := by
  intro n hn
  have hfirst := hq n hn
  have hfirst' := hmeets n hn
  unfold Meets at hfirst hfirst'
  cases hresult : (q n).run s with
  | error halt =>
    rw [hresult] at hfirst
    have hhalt : (q n >>= g n).run s = .error halt := by rw [StateT.run_bind, hresult]; rfl
    unfold Meets
    rw [hhalt]
    intro e he
    obtain ⟨ts, rest, hts, hgot, hfill, hagain⟩ := hfirst e he
    refine ⟨ts, rest, hts, hgot, ?_, ?_⟩
    · intro u hu
      obtain ⟨vs, hvs⟩ := hfill u hu
      exact hP ts u vs rest hts hvs
    · intro r m hr hfront hm
      rw [StateT.run_bind, hagain r m hr hfront hm]
      rfl
  | ok result =>
    obtain ⟨a, rest⟩ := result
    rw [hresult] at hfirst hfirst'
    obtain ⟨ts, rfl, hagain⟩ := hfirst
    obtain ⟨ts', hts', hG⟩ := hfirst'
    obtain rfl := eq_of_prepend_eq hts'
    -- wherever the first reader ends as it does here, the second one goes on from there
    have hwhole : Decides (fun n => q n >>= g n) Q (rest.prepend ts) := by
      refine behind ts hs (hg a ts rest rfl hs hG) (fun us hus => ⟨[], by simpa using hus⟩) ?_
      intro r m hr hfront hm
      have hsize : (r.prepend ts).size = ts.length + r.size := TokenStream.size_prepend r ts
      refine ⟨m - ts.length, by omega, ?_⟩
      rw [Nat.sub_add_cancel (by omega), StateT.run_bind, hagain r m hr hfront hm]
      rfl
    exact hwhole n hn

/-- A reader of phrases that begin phrases of the whole, and then going on from the rest. -/
theorem and_then {d c : Nat} {p : Parse α} {g : Nat → α → Parse β} {G : List Token → α → Prop}
    (hs : s.Ended) (hp : Decides (fun _ => p) P s) (hreads : Reads d c p G)
    (hP : ∀ ts, P ts → ∃ us, Q (ts ++ us))
    (hg : ∀ a ts rest, s = rest.prepend ts → rest.Ended → G ts a →
      Decides (fun n => g (n + ts.length) a) (fun us => Q (ts ++ us)) rest) :
    Decides (fun n => p >>= g n) Q s :=
  and_then_of_meets (G := fun ts a _ => G ts a) hs hp (fun _ _ => hreads s hs)
    (fun _ _ _ _ _ hts => exists_longer (hP _ hts)) hg

/-! ## Single tokens -/

theorem pure (a : α) : Decides (fun _ => pure a) Q s :=
  fun _ _ => ⟨[], rfl, fun _ _ _ _ _ => rfl⟩

/-- What is read is put into another form, and nothing more is read. -/
theorem then_pure {q : Nat → Parse α} {f : α → β} (hs : s.Ended) (hq : Decides q Q s) :
    Decides (fun n => q n >>= fun a => Pure.pure (f a)) Q s := by
  have hmeets : ∀ n, s.size ≤ n →
      (q n).Meets s (fun _ rest => ∃ ts, s = rest.prepend ts ∧ True) fun _ => True := by
    intro n hn
    refine (hq n hn).mono ?_ fun _ _ => trivial
    rintro a rest ⟨ts, hts, -⟩
    exact ⟨ts, hts, trivial⟩
  exact and_then_of_meets (G := fun _ _ _ => True) hs hq hmeets (fun _ _ us _ _ hts => ⟨us, hts⟩)
    fun a _ _ _ _ _ => pure (f a)

theorem tooDeep : Decides (fun _ => (Parse.tooDeep : Parse α)) Q s := by
  intro _ _ e he
  cases he

/-- Stopping at the token in front. -/
theorem fail {e : ParseError} (hgot : s.front = e.got)
    (hfill : ∀ u : Token, u.kind = e.wanted → ∃ vs, Q (u :: vs)) :
    Decides (fun _ => (Parse.fail e : Parse α)) Q s := by
  intro _ _ e' he'
  cases he'
  exact ⟨[], s, rfl, hgot, hfill, fun _ _ _ _ _ => rfl⟩

theorem front_and_then {g : Nat → Token → Parse β} (hs : s.Ended)
    (h : Decides (fun n => g n s.front) Q s) : Decides (fun n => front >>= g n) Q s := by
  refine congr hs h ?_
  intro r n _ hfront _
  rw [← hfront]
  rfl

theorem check_and_then {k : Token.Kind} {g : Nat → Bool → Parse β} (hs : s.Ended)
    (hyes : s.front.kind = k → Decides (fun n => g n true) Q s)
    (hno : s.front.kind ≠ k → Decides (fun n => g n false) Q s) :
    Decides (fun n => check k >>= g n) Q s := by
  have hrun : ∀ (r : TokenStream) n, (check k >>= g n).run r = (g n (r.front.kind == k)).run r :=
    fun _ _ => rfl
  by_cases h : s.front.kind = k
  · refine congr hs (hyes h) ?_
    intro r n _ hfront _
    rw [hrun, hfront, beq_iff_eq.mpr h]
  · refine congr hs (hno h) ?_
    intro r n _ hfront _
    rw [hrun, hfront, beq_eq_false_iff_ne.mpr h]

theorem pop_and_then {g : Nat → Token → Parse β} (hs : s.Ended) (h : s.front.kind ≠ .eof)
    (hnext : ∀ t rest, s = rest.prepend [t] → rest.Ended →
      Decides (fun n => g (n + 1) t) (fun ts => Q (t :: ts)) rest) :
    Decides (fun n => pop >>= g n) Q s := by
  have hfront := TokenStream.eq_prepend_front hs h
  rw [hfront]
  exact cons hs (hnext _ _ hfront hs) fun r n _ _ _ => rfl

theorem accept_and_then {k : Token.Kind} (hk : k ≠ .eof) {g : Nat → Bool → Parse β}
    (hs : s.Ended)
    (hyes : ∀ t rest, s = rest.prepend [t] → rest.Ended → t.kind = k →
      Decides (fun n => g (n + 1) true) (fun ts => Q (t :: ts)) rest)
    (hno : s.front.kind ≠ k → Decides (fun n => g n false) Q s) :
    Decides (fun n => accept k >>= g n) Q s := by
  by_cases h : s.front.kind = k
  · have hfront := TokenStream.eq_prepend_front hs (h ▸ hk)
    rw [hfront]
    exact cons hs (hyes _ _ hfront hs h) fun r n _ _ _ => run_accept_of_eq h r
  · refine congr hs (hno h) ?_
    intro r n _ hfront _
    exact run_accept_of_ne (by rw [hfront]; exact h)

/-- A token that is asked for: where it is missing, it could have gone on to a phrase. -/
theorem expect_and_then {k : Token.Kind} (hk : k ≠ .eof) {g : Nat → Token → Parse β}
    (hs : s.Ended) (hfill : ∀ u : Token, u.kind = k → ∃ vs, Q (u :: vs))
    (hnext : ∀ t rest, s = rest.prepend [t] → rest.Ended → t.kind = k →
      Decides (fun n => g (n + 1) t) (fun ts => Q (t :: ts)) rest) :
    Decides (fun n => expect k >>= g n) Q s := by
  by_cases h : s.front.kind = k
  · have hfront := TokenStream.eq_prepend_front hs (h ▸ hk)
    rw [hfront]
    exact cons hs (hnext _ _ hfront hs h) fun r n _ _ _ => run_expect h (g (n + 1)) r
  · refine congr hs (fail (e := .expected k s.front) rfl hfill) ?_
    intro r n _ hfront _
    have hexpect : (expect k).run r = .error (.wrong (.expected k s.front)) := by
      show (if r.front.kind = k then _ else _ : Parse Token).run _ = _
      rw [hfront, if_neg h]
      rfl
    rw [StateT.run_bind, hexpect]
    rfl

/-- The token behind the next one decides, and the next one is taken. -/
theorem second_pop_and_then {g : Nat → Token → Parse β} {f : Nat → Parse β} (hs : s.Ended)
    (h : s.front.kind ≠ .eof) (hg : ∀ n, g n (s.ahead 1) = pop >>= fun _ => f n)
    (hnext : ∀ t rest, s = rest.prepend [t] → rest.Ended →
      Decides (fun n => f (n + 1)) (fun ts => Q (t :: ts)) rest) :
    Decides (fun n => second >>= g n) Q s := by
  have hfront := TokenStream.eq_prepend_front hs h
  generalize s.front = t at hfront
  generalize s.pop.2 = rest at hfront
  subst hfront
  refine cons hs (hnext t rest rfl hs) ?_
  intro r n _ hrest _
  have hahead : (r.prepend [t]).ahead 1 = (rest.prepend [t]).ahead 1 := by
    rw [TokenStream.ahead_one_prepend_cons, TokenStream.ahead_one_prepend_cons]
    exact hrest
  show (g (n + 1) ((r.prepend [t]).ahead 1)).run _ = _
  rw [hahead, hg]
  rfl

/-- The token behind the next one decides, and all that is read goes beyond the next one: there is
    something that the reader takes for good behind the same front. -/
theorem second_and_then {g : Nat → Token → Parse β}
    (h : Decides (fun n => g n (s.ahead 1)) Q s)
    (hmoves : ∃ (r : TokenStream) (n : Nat), r.Ended ∧ r.front = s.front ∧ r.size ≤ n ∧
      (g n (s.ahead 1)).Meets r (fun _ rest => rest.size < r.size) (· = .tooDeep)) :
    Decides (fun n => second >>= g n) Q s := by
  obtain ⟨r₀, n₀, hended, hfront₀, hn₀, hmoves⟩ := hmoves
  have hrun : ∀ (r : TokenStream) n, (second >>= g n).run r = (g n (r.ahead 1)).run r :=
    fun _ _ => rfl
  unfold Meets at hmoves
  -- so the readers have taken the next token when they end, and seen the one behind it
  have hagain : ∀ {ts rest result}, s = TokenStream.prepend rest ts →
      Again (fun n => g n (s.ahead 1)) ts rest.front result →
      ((∃ a, result = fun r => .ok (a, r)) ∨ ∃ e, result = fun _ => .error (.wrong e)) →
      Again (fun n => second >>= g n) ts rest.front result := by
    rintro ts rest result hts hagain hresult r n hr hfront hn
    cases ts with
    | nil =>
      have hsame : (g n₀ (s.ahead 1)).run r₀ = result r₀ := by
        refine hagain r₀ n₀ hended ?_ hn₀
        rw [hfront₀, hts]
        rfl
      rw [hsame] at hmoves
      rcases hresult with ⟨a, rfl⟩ | ⟨e, rfl⟩
      · exact absurd hmoves (Nat.lt_irrefl _)
      · exact nomatch hmoves
    | cons t us =>
      have hahead : (r.prepend (t :: us)).ahead 1 = s.ahead 1 := by
        rw [hts, TokenStream.ahead_one_prepend_cons, TokenStream.ahead_one_prepend_cons]
        exact front_prepend_congr hfront us
      show (second >>= g n).run _ = _
      rw [hrun, hahead]
      exact hagain r n hr hfront hn
  intro n hn
  refine Meets.mono (p := g n (s.ahead 1)) (h n hn) ?_ ?_
  · rintro a rest ⟨ts, hts, h⟩
    exact ⟨ts, hts, hagain hts h (.inl ⟨a, rfl⟩)⟩
  · intro halt h e he
    obtain ⟨ts, rest, hts, hgot, hfill, h⟩ := h e he
    exact ⟨ts, rest, hts, hgot, hfill, hagain hts h (.inr ⟨e, rfl⟩)⟩

end Decides

/-- A reader of phrases of a relation reads phrases of a wider one. -/
theorem Reads.mono {d c : Nat} {p : Parse α} {G G' : List Token → α → Prop} (h : Reads d c p G)
    (hG : ∀ ts a, G ts a → G' ts a) : Reads d c p G' := by
  intro s hs
  refine (h s hs).mono ?_ fun _ h => h
  rintro a rest ⟨ts, hts, ha⟩
  exact ⟨ts, hts, hG ts a ha⟩

/-! ## Repetition -/

/-- Phrases with `P`, with a comma before each of them. -/
def CommaRow (P : List Token → Prop) (ts : List Token) : Prop :=
  ∃ ps, AfterCommas ps ts ∧ ∀ p ∈ ps, P p

/-- Phrases with `P` between parentheses, with commas between them. -/
def ParenRow (P : List Token → Prop) (ts : List Token) : Prop :=
  ∃ l r us ps, ts = l :: us ++ [r] ∧ Parentheses l r ∧ Separated ps us ∧ ∀ p ∈ ps, P p

/-- Phrases with `P` one after the other. -/
def PlainRow (P : List Token → Prop) (ts : List Token) : Prop :=
  ∃ ps : List (List Token), ts = ps.flatten ∧ ∀ p ∈ ps, P p

theorem CommaRow.cons {comma : Token} {ts us : List Token} (hcomma : comma.kind = .comma)
    (hts : P ts) (hus : CommaRow P us) : CommaRow P (comma :: (ts ++ us)) := by
  obtain ⟨ps, hps, hall⟩ := hus
  exact ⟨ts :: ps, .cons hcomma hps, List.forall_mem_cons.mpr ⟨hts, hall⟩⟩

theorem commaRow_nil : CommaRow P [] := ⟨[], .nil, nofun⟩

theorem ParenRow.of_first {l r : Token} {ts us : List Token} (hp : Parentheses l r) (hts : P ts)
    (hus : CommaRow P us) : ParenRow P (l :: (ts ++ us) ++ [r]) := by
  obtain ⟨ps, hps, hall⟩ := hus
  exact ⟨l, r, ts ++ us, ts :: ps, rfl, hp, .cons hps, List.forall_mem_cons.mpr ⟨hts, hall⟩⟩

theorem parenRow_nil {l r : Token} (hp : Parentheses l r) : ParenRow P [l, r] :=
  ⟨l, r, [], [], rfl, hp, .nil, nofun⟩

theorem PlainRow.cons {ts us : List Token} (hts : P ts) (hus : PlainRow P us) :
    PlainRow P (ts ++ us) := by
  obtain ⟨ps, rfl, hall⟩ := hus
  exact ⟨ts :: ps, rfl, List.forall_mem_cons.mpr ⟨hts, hall⟩⟩

theorem plainRow_nil : PlainRow P [] := ⟨[], rfl, nofun⟩

/-- A token of a kind, for a phrase in which nothing else matters. -/
def sample (kind : Token.Kind) : Token := ⟨kind, "", .nowhere, none⟩

section Rows

variable {d c : Nat} {item : Parse α}

theorem manyAfterComma_decides (hreads : Reads d c item fun ts _ => P ts)
    (hitem : ∀ s : TokenStream, s.Ended → Decides (fun _ => item) P s) :
    ∀ s : TokenStream, s.Ended → Decides (manyAfterComma item) (CommaRow P) s := by
  intro s
  induction hsize : s.size using Nat.strongRecOn generalizing s with
  | ind size ih =>
    intro hs
    subst hsize
    by_cases h : s.front.kind = .comma
    · -- a comma, an item and the rest of the row
      have hfront := TokenStream.eq_prepend_front hs (h ▸ by decide)
      generalize s.front = comma at h hfront
      generalize s.pop.2 = rest at hfront
      subst hfront
      have hrest : rest.Ended := hs
      refine .cons hrest ?_ fun r n _ _ _ => run_accept_of_eq h r
      refine .and_then hrest (hitem rest hrest) hreads
        (fun ts hts => ⟨[], .cons h hts commaRow_nil⟩) ?_
      rintro a ts rest rfl hs hts
      have hrow := (ih rest.size (by simp) rest rfl hs).shift hs ts.length
      refine .then_pure hs (hrow.mono hs fun us hus => ⟨[], ?_⟩)
      rw [List.append_nil]
      exact hus.cons h hts
    · refine .congr hs (.pure []) ?_
      intro r n _ hfront _
      cases n with
      | zero => rfl
      | succ n => exact run_accept_of_ne (by rw [hfront]; exact h)

theorem parenthesised_decides (hreads : Reads d c item fun ts _ => P ts)
    (hitem : ∀ s : TokenStream, s.Ended → Decides (fun _ => item) P s) (hs : s.Ended) :
    Decides (fun _ => parenthesised item) (ParenRow P) s := by
  refine .expect_and_then (by decide) hs
    (fun l hl => ⟨[sample .rparen], parenRow_nil ⟨hl, rfl⟩⟩) ?_
  rintro l s rfl hs hl
  refine .check_and_then hs (fun _ => ?_) fun _ => ?_
  · refine .expect_and_then (by decide) hs (fun r hr => ⟨[], parenRow_nil ⟨hl, hr⟩⟩) ?_
    exact fun _ _ _ _ _ => .pure _
  · refine .and_then hs (hitem s hs) hreads (fun ts hts => ⟨[sample .rparen], ?_⟩) ?_
    · have hrow := ParenRow.of_first (r := sample .rparen) ⟨hl, rfl⟩ hts commaRow_nil
      rwa [List.append_nil] at hrow
    · rintro a ts s rfl hs hts
      refine .sized (q := fun n => do
        let rest ← manyAfterComma item n
        let close ← expect .rparen
        return (a :: rest, close)) hs ?_
      refine .and_then_of_meets hs (manyAfterComma_decides hreads hitem s hs)
        (fun n _ => manyAfterComma_reads hreads n s hs) ?_ ?_
      · rintro us u vs rest - hus
        have hrow := ParenRow.of_first (r := sample .rparen) ⟨hl, rfl⟩ hts hus
        exact ⟨vs ++ [sample .rparen], by simpa using hrow⟩
      · rintro as us s rfl hs ⟨parts, hparts, hall, -⟩
        have hus : CommaRow P us := ⟨_, hparts, List.forall_mem_map.mpr hall⟩
        refine .expect_and_then (by decide) hs (fun r hr => ⟨[], ?_⟩) fun _ _ _ _ _ => .pure _
        have hrow := ParenRow.of_first ⟨hl, hr⟩ hts hus
        simpa using hrow

theorem manyUntil_reads_row {ends : Token.Kind → Bool} (hends : ends .eof = true)
    (hreads : Reads d c item fun ts _ => P ts) (hne : ∀ ts, P ts → ts ≠ []) (n : Nat)
    (hs : s.Ended) : (manyUntil ends item n).Meets s
      (fun _ rest => ∃ ts, s = rest.prepend ts ∧ PlainRow P ts) fun _ => True := by
  refine (manyUntil_meets hends hreads (fun ts _ => hne ts) n s hs).mono ?_ fun _ _ => trivial
  rintro as rest ⟨⟨ts, hts, parts, hparts, hall, -⟩, -⟩
  exact ⟨ts, hts, _, hparts, List.forall_mem_map.mpr hall⟩

theorem manyUntil_decides {ends : Token.Kind → Bool} (hends : ends .eof = true)
    (hreads : Reads d c item fun ts _ => P ts) (hne : ∀ ts, P ts → ts ≠ [])
    (hitem : ∀ s : TokenStream, s.Ended → Decides (fun _ => item) P s) :
    ∀ s : TokenStream, s.Ended → Decides (manyUntil ends item) (PlainRow P) s := by
  intro s
  induction hsize : s.size using Nat.strongRecOn generalizing s with
  | ind size ih =>
    intro hs
    subst hsize
    cases h : ends s.front.kind with
    | true =>
      refine .congr hs (.pure []) ?_
      intro r n _ hfront _
      cases n with
      | zero => rfl
      | succ n =>
        show (if ends r.front.kind = true then _ else _ : Parse (List α)).run r = _
        rw [hfront, if_pos h]
    | false =>
      -- the row does not end here, so a token is queued and the bound is no zero
      have hrun : ∀ (r : TokenStream) n, r.Ended → r.front = s.front → r.size ≤ n →
          (manyUntil ends item n).run r = (do
            let first ← item
            let rest ← manyUntil ends item (n - 1)
            return first :: rest : Parse (List α)).run r := by
        intro r n hr hfront hn
        have hkind : r.front.kind ≠ .eof := by
          intro heof
          rw [hfront] at heof
          rw [heof, hends] at h
          cases h
        have hpos := TokenStream.size_pos_of_front hr hkind
        obtain ⟨n, rfl⟩ : ∃ m, n = m + 1 := ⟨n - 1, by omega⟩
        show (if ends r.front.kind = true then _ else _ : Parse (List α)).run r = _
        rw [hfront, h]
        rfl
      refine .congr hs ?_ hrun
      refine .and_then hs (hitem s hs) hreads (fun ts hts => ⟨[], .cons hts plainRow_nil⟩) ?_
      rintro a ts rest rfl hrest hts
      obtain ⟨t, us, rfl⟩ := List.exists_cons_of_ne_nil (hne ts hts)
      have hrow := (ih rest.size (by simp) rest rfl hrest).shift hrest us.length
      refine .then_pure hrest (hrow.mono hrest fun vs hvs => ⟨[], ?_⟩)
      rw [List.append_nil]
      exact .cons hts hvs

end Rows

end Parse

end MiniLang
