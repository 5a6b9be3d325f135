/-
  What a reader of tokens does from a given stream.

  A `Parse` ends well, in a value and a rest, or it stops at a wrong token, or it runs out of
  frames.  `Parse.Meets` says of all three at once what is to hold, and composes along `>>=`.

  1. **Rests** — `s.prepend ts` is the stream that reads `ts` first and goes on as `s`; a reader
     that consumed the phrase `ts` from it has left `s`.
  2. **Primitives** — one equivalence for each operation on streams.
  3. **`Parse.Reads`** — the reader consumes exactly a phrase of a given relation, and a number of
     frames that grows with the queue is enough for it not to run out of frames.
-/
import MiniLang.Program.Parser

namespace MiniLang

namespace TokenStream

/-- The stream that has some more tokens in front. -/
def prepend (s : TokenStream) (ts : List Token) : TokenStream := { s with queue := ts ++ s.queue }

@[simp] theorem prepend_nil (s : TokenStream) : s.prepend [] = s := rfl

@[simp] theorem front_prepend_cons (s : TokenStream) (t : Token) (ts : List Token) :
    (s.prepend (t :: ts)).front = t := rfl

@[simp] theorem ahead_one_prepend_cons (s : TokenStream) (t : Token) (ts : List Token) :
    (s.prepend (t :: ts)).ahead 1 = (s.prepend ts).front := by
  rw [front_eq_ahead]; rfl

@[simp] theorem pop_prepend_cons (s : TokenStream) (t : Token) (ts : List Token) :
    (s.prepend (t :: ts)).pop.2 = s.prepend ts := rfl

@[simp] theorem prepend_prepend (s : TokenStream) (ts us : List Token) :
    (s.prepend us).prepend ts = s.prepend (ts ++ us) := by
  simp [prepend]

@[simp] theorem size_prepend (s : TokenStream) (ts : List Token) :
    (s.prepend ts).size = ts.length + s.size := by
  simp [size, prepend]

/-- Beyond the queue stands an end marker. -/
def Ended (s : TokenStream) : Prop := s.sentinel.kind = .eof

theorem ended_ofTokens (tokens : List Token) : (ofTokens tokens).Ended := sentinelOf_kind tokens

/-- A front token that is no end marker stands in the queue. -/
theorem eq_prepend_front {s : TokenStream} (hs : s.Ended) (h : s.front.kind ≠ .eof) :
    s = s.pop.2.prepend [s.front] := by
  obtain ⟨queue, sentinel⟩ := s
  cases queue with
  | nil => exact absurd hs h
  | cons t rest => rfl

theorem size_pos_of_front {s : TokenStream} (hs : s.Ended) (h : s.front.kind ≠ .eof) :
    0 < s.size := by
  rw [eq_prepend_front hs h, size_prepend, List.length_singleton]
  omega

end TokenStream

namespace Parse

/-! ## What a reader does -/

section

variable {α β : Type} {p : Parse α} {s : TokenStream} {good good' : α → TokenStream → Prop}
  {bad bad' : ParseHalt → Prop}

/-- From the stream `s` the reader ends in a value and a rest that are `good`, or it stops for a
    reason that is `bad`. -/
def Meets (p : Parse α) (s : TokenStream) (good : α → TokenStream → Prop)
    (bad : ParseHalt → Prop) : Prop :=
  match p.run s with
  | .ok (a, s') => good a s'
  | .error halt => bad halt

theorem Meets.mono (h : p.Meets s good bad) (hgood : ∀ a s', good a s' → good' a s')
    (hbad : ∀ halt, bad halt → bad' halt) : p.Meets s good' bad' := by
  unfold Meets at h ⊢
  cases hp : p.run s with
  | ok r => rw [hp] at h; exact hgood _ _ h
  | error halt => rw [hp] at h; exact hbad _ h

theorem Meets.and (h : p.Meets s good bad) (h' : p.Meets s good' bad') :
    p.Meets s (fun a s' => good a s' ∧ good' a s') fun halt => bad halt ∧ bad' halt := by
  unfold Meets at h h' ⊢
  cases hp : p.run s with
  | ok r => rw [hp] at h h'; exact ⟨h, h'⟩
  | error halt => rw [hp] at h h'; exact ⟨h, h'⟩

@[simp] theorem meets_bind (p : Parse α) (f : α → Parse β) {good : β → TokenStream → Prop} :
    (p >>= f).Meets s good bad ↔ p.Meets s (fun a s' => (f a).Meets s' good bad) bad := by
  unfold Meets
  rw [StateT.run_bind]
  cases p.run s <;> exact Iff.rfl

@[simp] theorem meets_front {good : Token → TokenStream → Prop} :
    front.Meets s good bad ↔ good s.front s := Iff.rfl

@[simp] theorem meets_second {good : Token → TokenStream → Prop} :
    second.Meets s good bad ↔ good (s.ahead 1) s := Iff.rfl

@[simp] theorem meets_get {good : TokenStream → TokenStream → Prop} :
    (get : Parse TokenStream).Meets s good bad ↔ good s s := Iff.rfl

@[simp] theorem meets_pop {good : Token → TokenStream → Prop} :
    pop.Meets s good bad ↔ good s.front s.pop.2 := Iff.rfl

@[simp] theorem meets_check (k : Token.Kind) {good : Bool → TokenStream → Prop} :
    (check k).Meets s good bad ↔ good (s.front.kind == k) s := Iff.rfl

@[simp] theorem meets_fail (e : ParseError) :
    (fail e : Parse α).Meets s good bad ↔ bad (.wrong e) := Iff.rfl

theorem meets_accept (k : Token.Kind) {good : Bool → TokenStream → Prop} :
    (accept k).Meets s good bad
      ↔ if s.front.kind = k then good true s.pop.2 else good false s := by
  unfold accept
  rw [meets_bind, meets_check]
  by_cases h : s.front.kind = k
  · rw [if_pos h, if_pos (beq_iff_eq.mpr h), meets_bind, meets_pop]
    exact Iff.rfl
  · rw [if_neg h, if_neg (fun hb => h (beq_iff_eq.mp hb))]
    exact Iff.rfl

theorem meets_expect (k : Token.Kind) {good : Token → TokenStream → Prop} :
    (expect k).Meets s good bad
      ↔ if s.front.kind = k then good s.front s.pop.2 else bad (.wrong (.expected k s.front)) := by
  unfold expect
  rw [meets_bind, meets_front]
  split
  · exact meets_pop
  · exact meets_fail _

end

/-! ## Reading phrases -/

/-- A reader stops for want of frames only if `d` is less than `n`. -/
def Short (d n : Nat) (halt : ParseHalt) : Prop := halt = .tooDeep → d < n

/-- The reader consumes a phrase of `G`; and `11` frames for each queued token and `c` more are
    enough for it. -/
def Reads {α : Type} (d c : Nat) (p : Parse α) (G : List Token → α → Prop) : Prop :=
  ∀ s : TokenStream, s.Ended →
    p.Meets s (fun a s' => ∃ ts, s = s'.prepend ts ∧ G ts a) (Short d (11 * s.size + c))

theorem short_wrong {d n : Nat} {e : ParseError} : Short d n (.wrong e) := nofun

theorem Short.trans {d d' n n' : Nat} {halt : ParseHalt} (h : Short d' n' halt)
    (hle : d' < n' → d < n) : Short d n halt := fun hdeep => hle (h hdeep)

/-- Reading a phrase, and then going on from the rest. -/
theorem Reads.and_then {α β : Type} {d c D N : Nat} {p : Parse α} {G : List Token → α → Prop}
    {f : α → Parse β} {s : TokenStream} {good : β → TokenStream → Prop} (hp : Reads d c p G)
    (hs : s.Ended) (hle : d < 11 * s.size + c → D < N)
    (hnext : ∀ a ts s', s = s'.prepend ts → G ts a → (f a).Meets s' good (Short D N)) :
    (p >>= f).Meets s good (Short D N) := by
  rw [meets_bind]
  refine (hp s hs).mono ?_ fun halt h => h.trans hle
  rintro a s' ⟨ts, hts, hG⟩
  exact hnext a ts s' hts hG

/-- Expecting a token, and then going on after it. -/
theorem expect_and_then {β : Type} {D N : Nat} {k : Token.Kind} (hk : k ≠ .eof)
    {f : Token → Parse β} {s : TokenStream} {good : β → TokenStream → Prop} (hs : s.Ended)
    (hnext : ∀ t s', s = s'.prepend [t] → t.kind = k → (f t).Meets s' good (Short D N)) :
    (expect k >>= f).Meets s good (Short D N) := by
  rw [meets_bind, meets_expect]
  split
  · next h => exact hnext _ _ (TokenStream.eq_prepend_front hs (h ▸ hk)) h
  · exact short_wrong

/-- Taking the token in front, and then going on after it. -/
theorem pop_and_then {β : Type} {D N : Nat} {f : Token → Parse β} {s : TokenStream}
    {good : β → TokenStream → Prop} (hs : s.Ended) (h : s.front.kind ≠ .eof)
    (hnext : ∀ t s', s = s'.prepend [t] → (f t).Meets s' good (Short D N)) :
    (pop >>= f).Meets s good (Short D N) := by
  rw [meets_bind, meets_pop]
  exact hnext _ _ (TokenStream.eq_prepend_front hs h)

/-- Taking a token of a kind or leaving one of another, and then going on. -/
theorem accept_and_then {β : Type} {D N : Nat} {k : Token.Kind} (hk : k ≠ .eof)
    {f : Bool → Parse β} {s : TokenStream} {good : β → TokenStream → Prop} (hs : s.Ended)
    (hyes : ∀ t s', s = s'.prepend [t] → t.kind = k → (f true).Meets s' good (Short D N))
    (hno : s.front.kind ≠ k → (f false).Meets s good (Short D N)) :
    (accept k >>= f).Meets s good (Short D N) := by
  rw [meets_bind, meets_accept]
  split
  · next h => exact hyes _ _ (TokenStream.eq_prepend_front hs (h ▸ hk)) h
  · next h => exact hno h

end Parse

end MiniLang
