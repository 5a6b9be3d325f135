/-
  What a stream of tokens gives, whatever is asked of it and in whatever order.

  1. **The end of a list** — `Token.Closes tokens stop`: the one token that stands behind a list again
     and again.
  2. **Accesses** — pops, and looks at any offset.  `s.log accesses` records of each what it gave
     and how many tokens were queued afterwards.
  3. **The place reached** — a stream keeps its end marker and loses one token with each pop, so what
     it gives depends on the number of pops before and on nothing else (`ahead_after`).
-/
import MiniLang.Token.Stream

namespace MiniLang

/-! ## The end of a list -/

/-- The token that follows a list of tokens again and again: its own last token if that marks the
    end, and otherwise an empty one just behind the last token, or at the very beginning if there is
    none. -/
inductive Token.Closes : List Token → Token → Prop
  | own (tokens : List Token) (last : Token) :
      last.kind = .eof → Closes (tokens ++ [last]) last
  | behind (tokens : List Token) (last : Token) :
      last.kind ≠ .eof → Closes (tokens ++ [last]) ⟨.eof, "", ⟨last.span.stop, last.span.stop⟩, none⟩
  | alone : Closes [] ⟨.eof, "", ⟨⟨1, 1, 0⟩, ⟨1, 1, 0⟩⟩, none⟩

namespace TokenStream

theorem closes_sentinelOf (tokens : List Token) : Token.Closes tokens (sentinelOf tokens) := by
  rcases List.eq_nil_or_concat tokens with rfl | ⟨front, last, rfl⟩
  · exact .alone
  · rw [List.concat_eq_append, sentinelOf, List.getLast?_concat]
    by_cases hlast : last.kind = .eof
    · simp only [if_pos hlast]
      exact .own front last hlast
    · simp only [if_neg hlast]
      exact .behind front last hlast

/-! ## Accesses -/

/-- What can be asked of a stream. -/
inductive Access
  | pop
  | peek (offset : Int)
  deriving DecidableEq

/-- What an access gives, and the stream that it leaves; a look in front of the first token gives
    nothing. -/
def access (s : TokenStream) : Access → Option Token × TokenStream
  | .pop => (some s.pop.1, s.pop.2)
  | .peek offset => (s.peek? offset, s)

/-- The stream that some accesses leave. -/
def after (s : TokenStream) (accesses : List Access) : TokenStream :=
  accesses.foldl (fun s a => (s.access a).2) s

/-- An access, what it gave, and how many tokens were queued afterwards. -/
structure Event where
  access : Access
  given : Option Token
  left : Nat

/-- What some accesses give, one after the other. -/
def log (s : TokenStream) : List Access → List Event
  | [] => []
  | a :: rest => ⟨a, (s.access a).1, (s.access a).2.size⟩ :: (s.access a).2.log rest

/-- How many tokens some accesses take. -/
def pops (accesses : List Access) : Nat := accesses.count .pop

/-- The tokens that were taken. -/
def taken (events : List Event) : List Token :=
  events.filterMap fun e => if e.access = .pop then e.given else none

@[simp] theorem pops_pop (rest : List Access) : pops (.pop :: rest) = pops rest + 1 :=
  List.count_cons_self

@[simp] theorem pops_peek (offset : Int) (rest : List Access) :
    pops (.peek offset :: rest) = pops rest := by
  simp [pops]

theorem after_append (s : TokenStream) (as bs : List Access) :
    s.after (as ++ bs) = (s.after as).after bs := List.foldl_append

theorem log_append (s : TokenStream) (as bs : List Access) :
    s.log (as ++ bs) = s.log as ++ (s.after as).log bs := by
  induction as generalizing s with
  | nil => rfl
  | cons a rest ih => exact congrArg _ (ih _)

theorem length_log (s : TokenStream) (as : List Access) : (s.log as).length = as.length := by
  induction as generalizing s with
  | nil => rfl
  | cons a rest ih => exact congrArg (· + 1) (ih _)

/-! ## The place reached -/

/-- After some accesses, the token so far ahead is as many further ahead at first as were taken. -/
theorem ahead_after (s : TokenStream) (as : List Access) (n : Nat) :
    (s.after as).ahead n = s.ahead (pops as + n) := by
  induction as generalizing s with
  | nil => exact congrArg s.ahead (Nat.zero_add n).symm
  | cons a rest ih =>
    cases a with
    | pop =>
      have hrest : (s.after (.pop :: rest)).ahead n = s.pop.2.ahead (pops rest + n) := ih s.pop.2
      rw [hrest, ahead_pop, pops_pop]
      congr 1
      omega
    | peek offset => rw [pops_peek]; exact ih s

theorem size_after (s : TokenStream) (as : List Access) :
    (s.after as).size = s.size - pops as := by
  induction as generalizing s with
  | nil => rfl
  | cons a rest ih =>
    cases a with
    | pop =>
      have hrest : (s.after (.pop :: rest)).size = s.pop.2.size - pops rest := ih s.pop.2
      rw [hrest, size_pop, pops_pop]
      omega
    | peek offset => rw [pops_peek]; exact ih s

/-- The tokens taken are those that stood ahead at first, from the nearest on. -/
theorem taken_log (s : TokenStream) (as : List Access) :
    taken (s.log as) = (List.range (pops as)).map s.ahead := by
  induction as generalizing s with
  | nil => rfl
  | cons a rest ih =>
    cases a with
    | pop =>
      have hfirst : taken (s.log (.pop :: rest)) = s.front :: taken (s.pop.2.log rest) := rfl
      have hahead : s.pop.2.ahead = s.ahead ∘ Nat.succ := funext (ahead_pop s)
      rw [hfirst, ih, pops_pop, List.range_succ_eq_map, List.map_cons, List.map_map,
        front_eq_ahead, hahead]
    | peek offset => rw [pops_peek]; exact ih s

/-- The tokens ahead are those of the queue, and then the end marker again and again. -/
theorem map_ahead_range (s : TokenStream) (k : Nat) :
    (List.range k).map s.ahead = (s.queue ++ List.replicate k s.sentinel).take k := by
  refine List.ext_getElem (by simp) ?_
  intro i hi _
  have hik : i < k := by simpa using hi
  rw [List.getElem_map, List.getElem_range, List.getElem_take, List.getElem_append, ahead]
  by_cases hqueued : i < s.queue.length
  · rw [dif_pos hqueued, List.getElem?_eq_getElem hqueued, Option.getD_some]
  · rw [dif_neg hqueued, List.getElem?_eq_none (Nat.le_of_not_lt hqueued), Option.getD_none,
      List.getElem_replicate]

/-- A look fails in front of the first token only. -/
theorem peek?_eq_none_iff (s : TokenStream) (offset : Int) :
    s.peek? offset = none ↔ offset < -(s.size : Int) := by
  cases offset with
  | ofNat n =>
    have hfound : s.peek? (.ofNat n) = some (s.ahead n) := rfl
    rw [hfound, Int.ofNat_eq_natCast]
    simp only [reduceCtorEq, false_iff]
    omega
  | negSucc n =>
    rw [peek?, List.getElem?_eq_none_iff, List.length_reverse, Int.negSucc_eq, size]
    omega

/-- **Tokens in their order, and then their end for ever.**  However many pops and looks are made,
    the pops give the tokens of the list one after the other and then one and the same end marker.
    After any of them, a look ahead gives what the pop that comes after as many other pops is going
    to give, with whatever looks in between; of the tokens as many are left as were not taken; a look
    backwards fails exactly if it goes beyond the first of these; and no look, also none that fails,
    changes anything that is given later. -/
theorem stream_gives_tokens_then_end (tokens : List Token) :
    ∃ stop, Token.Closes tokens stop ∧ ∀ accesses : List Access,
      let s := (ofTokens tokens).after accesses
      taken ((ofTokens tokens).log accesses) =
        (tokens ++ List.replicate (pops accesses) stop).take (pops accesses) ∧
      s.size = tokens.length - pops accesses ∧
      (∀ more, s.peek? (pops more) = some (s.after more).pop.1) ∧
      (∀ offset, s.peek? offset = none ↔ offset < -(s.size : Int)) ∧
      ∀ offset more, ((ofTokens tokens).log (accesses ++ .peek offset :: more)).eraseIdx
        accesses.length = (ofTokens tokens).log (accesses ++ more) := by
  refine ⟨sentinelOf tokens, closes_sentinelOf tokens, ?_⟩
  intro accesses s
  refine ⟨?_, size_after _ accesses, ?_, peek?_eq_none_iff s, ?_⟩
  · rw [taken_log, map_ahead_range]
    rfl
  · intro more
    have hnext : (s.after more).pop.1 = s.ahead (pops more) :=
      (front_eq_ahead _).trans (ahead_after s more 0)
    rw [hnext]
    rfl
  · intro offset more
    rw [log_append, log_append, List.eraseIdx_append_of_length_le (Nat.le_of_eq (length_log _ _)),
      length_log, Nat.sub_self]
    rfl

/-- Two names with an end marker between them: it is given in its place like any other token, and
    the one at the end is another. -/
example :
    let a : Token := ⟨.name, "a", ⟨⟨1, 1, 0⟩, ⟨1, 2, 1⟩⟩, none⟩
    let b : Token := ⟨.name, "b", ⟨⟨1, 3, 2⟩, ⟨1, 4, 3⟩⟩, none⟩
    let middle := Token.endAt ⟨1, 2, 1⟩
    let stop := Token.endAt ⟨1, 4, 3⟩
    ((ofTokens [a, middle, b]).log [.peek 3, .pop, .peek (-3), .peek (-2), .pop, .pop, .pop]).map
      (fun e => (e.given, e.left)) =
      [(some stop, 3), (some a, 2), (none, 2), (some middle, 2), (some middle, 1), (some b, 0),
        (some stop, 0)] := by decide

end TokenStream

end MiniLang
