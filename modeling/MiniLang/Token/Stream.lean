/-
  A queue of tokens that never runs dry.

  `TokenStream.pop` takes the token at the front, and `peek` looks at tokens further back without
  taking any.  Beyond the last token stands one fixed end marker, again and again: the list's own
  last token if that is an end marker, and otherwise an empty one just after the last token.
-/
import MiniLang.Token

namespace MiniLang

/-- The tokens still to be read, and what is read after them. -/
structure TokenStream where
  queue : List Token
  sentinel : Token

namespace TokenStream

/-- The end marker that follows a list of tokens. -/
def sentinelOf (tokens : List Token) : Token :=
  match tokens.getLast? with
  | none => .endAt .origin
  | some last => if last.kind = .eof then last else .endAt last.span.stop

/-- A stream over a list of tokens. -/
def ofTokens (tokens : List Token) : TokenStream := ⟨tokens, sentinelOf tokens⟩

/-- How many tokens are queued. -/
def size (s : TokenStream) : Nat := s.queue.length

/-- The token that the `n`-th pop from here would take, counting from zero. -/
def ahead (s : TokenStream) (n : Nat) : Token := s.queue[n]?.getD s.sentinel

/-- The next token. -/
def front (s : TokenStream) : Token := s.queue.headD s.sentinel

/-- Looks at a token without taking it.  A negative offset counts from the back of the queue, and
    there is no token in front of the first one. -/
def peek? (s : TokenStream) : Int → Option Token
  | .ofNat n => some (s.ahead n)
  | .negSucc n => s.queue.reverse[n]?

/-- Takes the next token. -/
def pop (s : TokenStream) : Token × TokenStream := (s.front, { s with queue := s.queue.tail })

/-- The end marker of a list of tokens is one. -/
theorem sentinelOf_kind (tokens : List Token) : (sentinelOf tokens).kind = .eof := by
  unfold sentinelOf
  split
  · rfl
  · split
    · assumption
    · rfl

@[simp] theorem pop_sentinel (s : TokenStream) : s.pop.2.sentinel = s.sentinel := rfl

theorem front_eq_ahead (s : TokenStream) : s.front = s.ahead 0 := by
  unfold front ahead; cases s.queue <;> rfl

@[simp] theorem size_pop (s : TokenStream) : s.pop.2.size = s.size - 1 := by
  simp [size, pop]

/-- Looking `n` ahead after a pop is looking `n + 1` ahead before it. -/
@[simp] theorem ahead_pop (s : TokenStream) (n : Nat) : s.pop.2.ahead n = s.ahead (n + 1) := by
  simp [ahead, pop]

end TokenStream

end MiniLang
