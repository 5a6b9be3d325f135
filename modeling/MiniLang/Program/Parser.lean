/-
  From tokens to programs.

  The grammar, with `{ x }` for any number of `x` and `[ x ]` for at most one:

      program  = { function | stmt } END
      function = FUNC ID ( [ ID { , ID } ] ) block
      block    = LBRACE { stmt } RBRACE
      stmt     = return [ expr ] ;  |  if ( expr ) stmt [ else stmt ]  |  while ( expr ) stmt
               | block  |  print args ;  |  ID = expr ;  |  ID args ;  |  expr ;
      expr     = four levels of left-associative operators over unary
      unary    = - unary  |  INT  |  ID [ args ]  |  print args  |  ( expr )

  1. **Reading** — a `Parse` reads from a `TokenStream` and stops at the first token that does not
     fit, which becomes part of the error.
  2. **Depth** — the functions that call each other each take a number of frames and hand a
     smaller one on, so nesting is bounded and every one of them ends.  A level of operators takes
     two frames, everything else one; a pair of parentheses costs eleven.
  3. **Repetition** — a repetition is bounded by the number of queued tokens, and each round takes
     at least one.  So the bound is reached only when the stream is drained, and there every
     repetition ends anyway.
-/
import MiniLang.Program
import MiniLang.Token.Stream

namespace MiniLang

/-- What a token should have been. -/
inductive ParseError
  /-- Another kind of token had to stand here. -/
  | expected (kind : Token.Kind) (got : Token)
  /-- No expression begins with this token. -/
  | expectedExpression (got : Token)
  deriving DecidableEq

/-- Why parsing stops. -/
inductive ParseHalt
  | wrong (error : ParseError)
  /-- The program is nested more deeply than the frames allow. -/
  | tooDeep
  deriving DecidableEq

/-- A reader of tokens. -/
abbrev Parse := StateT TokenStream (Except ParseHalt)

namespace Parse

/-! ## Reading tokens -/

/-- The next token, which stays where it is. -/
def front : Parse Token := do return (← get).front

/-- The token after the next one; both stay where they are. -/
def second : Parse Token := do return (← get).ahead 1

/-- Takes the next token. -/
def pop : Parse Token := modifyGet TokenStream.pop

/-- Is the next token of this kind? -/
def check (kind : Token.Kind) : Parse Bool := do return (← front).kind == kind

/-- Takes the next token if it is of this kind. -/
def accept (kind : Token.Kind) : Parse Bool := do
  if ← check kind then
    let _ ← pop
    return true
  else return false

/-- Stops at a token that does not fit. -/
def fail {α : Type} (error : ParseError) : Parse α := throw (.wrong error)

/-- Takes the next token, which must be of this kind. -/
def expect (kind : Token.Kind) : Parse Token := do
  let token ← front
  if token.kind = kind then pop else fail (.expected kind token)

/-- Stops because the frames are used up. -/
def tooDeep {α : Type} : Parse α := throw .tooDeep

/-! ## Repetition -/

/-- As many items as there are in front of a token that ends the row. -/
@[specialize] def manyUntil {α : Type} (ends : Token.Kind → Bool) (item : Parse α) :
    Nat → Parse (List α)
  | 0 => return []
  | n + 1 => do
    if ends (← front).kind then return []
    else
      let first ← item
      let rest ← manyUntil ends item n
      return first :: rest

/-- The items after the first one of a row with commas between them. -/
@[specialize] def manyAfterComma {α : Type} (item : Parse α) : Nat → Parse (List α)
  | 0 => return []
  | n + 1 => do
    if ← accept .comma then
      let first ← item
      let rest ← manyAfterComma item n
      return first :: rest
    else return []

/-- The items between two parentheses, with commas between them, and the closing parenthesis. -/
@[specialize] def parenthesised {α : Type} (item : Parse α) : Parse (List α × Token) := do
  let _ ← expect .lparen
  if ← check .rparen then
    let close ← expect .rparen
    return ([], close)
  else
    let first ← item
    let rest ← manyAfterComma item (← get).size
    let close ← expect .rparen
    return (first :: rest, close)

/-- The rest of a row of operands with operators between them, grouped to the left. -/
@[specialize] def chain (ops : Token.Kind → Bool) (operand : Parse Expr) : Nat → Expr → Parse Expr
  | 0, left => return left
  | n + 1, left => do
    let token ← front
    if ops token.kind then
      let _ ← pop
      let right ← operand
      chain ops operand n (.binary (left.span.through right.span) left token.kind right)
    else return left

/-! ## Expressions -/

/-- The levels of binary operators, from the loosest to the tightest. -/
inductive Level
  | equality | relational | additive | multiplicative
  deriving DecidableEq

namespace Level

/-- The operators of a level. -/
def operators : Level → List Token.Kind
  | equality => [.eq, .neq]
  | relational => [.lt, .lte, .gt, .gte]
  | additive => [.plus, .minus]
  | multiplicative => [.star, .slash, .percent]

/-- Is this an operator of the level? -/
def holds (level : Level) (kind : Token.Kind) : Bool := level.operators.contains kind

/-- The next tighter level. -/
def tighter? : Level → Option Level
  | equality => some relational
  | relational => some additive
  | additive => some multiplicative
  | multiplicative => none

end Level

mutual

/-- An expression. -/
def expression : Nat → Parse Expr
  | 0 => tooDeep
  | d + 1 => level d .equality

/-- A row of operands of a level. -/
def level : Nat → Level → Parse Expr
  | d + 2, l => do
    let first ← match l.tighter? with
      | some l' => level d l'
      | none => unary d
    chain l.holds (match l.tighter? with | some l' => level d l' | none => unary d)
      (← get).size first
  | _, _ => tooDeep

/-- An operand, with any number of minus signs before it.  A minus sign is read as a difference
    from a zero that stands where the sign does. -/
def unary : Nat → Parse Expr
  | 0 => tooDeep
  | d + 1 => do
    let sign ← front
    if ← accept .minus then
      let operand ← unary d
      return .binary (sign.span.through operand.span) (.lit sign.span 0) .minus operand
    else primary d

/-- A number, a name, a call or an expression in parentheses. -/
def primary : Nat → Parse Expr
  | 0 => tooDeep
  | d + 1 => do
    let token ← front
    match token.kind with
    | .int =>
      let _ ← pop
      return .lit token.span (token.value.getD 0)
    | .name =>
      let _ ← pop
      if ← check .lparen then callOf d token
      else return .var token.span token.lexeme
    | .kwPrint =>
      let _ ← pop
      if ← check .lparen then callOf d token
      else fail (.expected .lparen (← front))
    | .lparen =>
      let _ ← pop
      let inner ← expression d
      let _ ← expect .rparen
      return inner
    | _ => fail (.expectedExpression token)

/-- A call, after its name. -/
def callOf : Nat → Token → Parse Expr
  | 0, _ => tooDeep
  | d + 1, callee => do
    let (args, close) ← parenthesised (expression d)
    return .call (callee.span.through close.span) callee.lexeme args

end

/-! ## Statements -/

/-- An expression and the semicolon after it, as a statement that begins at a place. -/
def closed (e : Expr) (start : Span) : Parse Stmt := do
  let semi ← expect .semi
  return .expr (start.through semi.span) e

mutual

/-- A statement. -/
def statement : Nat → Parse Stmt
  | 0 => tooDeep
  | d + 1 => do
    let token ← front
    match token.kind with
    | .kwReturn =>
      let _ ← pop
      if ← check .semi then
        let semi ← expect .semi
        return .ret (token.span.through semi.span) none
      else
        let value ← expression d
        let semi ← expect .semi
        return .ret (token.span.through semi.span) (some value)
    | .kwIf =>
      let _ ← pop
      let _ ← expect .lparen
      let cond ← expression d
      let _ ← expect .rparen
      let yes ← statement d
      if ← accept .kwElse then
        let no ← statement d
        return .ifElse (token.span.through no.span) cond yes (some no)
      else return .ifElse (token.span.through yes.span) cond yes none
    | .kwWhile =>
      let _ ← pop
      let _ ← expect .lparen
      let cond ← expression d
      let _ ← expect .rparen
      let body ← statement d
      return .loop (token.span.through body.span) cond body
    | .lbrace => block d
    | .kwPrint =>
      let _ ← pop
      let e ← callOf d token
      closed e token.span
    | .name =>
      match (← second).kind with
      | .assign =>
        let _ ← pop
        let _ ← pop
        let value ← expression d
        let semi ← expect .semi
        return .assign (token.span.through semi.span) token.lexeme value
      | .lparen =>
        let _ ← pop
        let e ← callOf d token
        closed e token.span
      | _ =>
        let e ← expression d
        closed e e.span
    | _ =>
      let e ← expression d
      closed e e.span

/-- A block: statements between braces. -/
def block : Nat → Parse Stmt
  | 0 => tooDeep
  | d + 1 => do
    let lbrace ← expect .lbrace
    let body ← manyUntil (fun k => k == .rbrace || k == .eof) (statement d) (← get).size
    let rbrace ← expect .rbrace
    return .block (lbrace.span.through rbrace.span) body

end

/-! ## Programs -/

/-- A function definition. -/
def definition : Nat → Parse FunctionDef
  | 0 => tooDeep
  | d + 1 => do
    let start ← expect .kwFunc
    let name ← expect .name
    let (params, _) ← parenthesised (expect .name)
    let body ← block d
    return ⟨start.span.through body.span, name.lexeme, params.map (·.lexeme), body⟩

/-- What may stand at the top of a program. -/
inductive Item
  | definition (f : FunctionDef)
  | statement (s : Stmt)

/-- An item is a definition exactly if it begins with the keyword of one. -/
def item (d : Nat) : Parse Item := do
  if ← check .kwFunc then return .definition (← definition d)
  else return .statement (← statement d)

/-- The definitions among some items, in order. -/
def Item.definitions (items : List Item) : List FunctionDef :=
  items.filterMap fun | .definition f => some f | .statement _ => none

/-- The statements among some items, in order. -/
def Item.statements (items : List Item) : List Stmt :=
  items.filterMap fun | .definition _ => none | .statement s => some s

/-- A whole program, up to the end marker. -/
def program (d : Nat) : Parse Program := do
  let start ← front
  let items ← manyUntil (· == .eof) (item d) (← get).size
  let stop ← front
  let span := start.span.through stop.span
  return ⟨span, Item.definitions items, .block span (Item.statements items)⟩

end Parse

/-- The program that a list of tokens makes, parsed within a number of frames. -/
def Program.ofTokens (frames : Nat) (tokens : List Token) : Except ParseHalt Program :=
  match (Parse.program frames).run (.ofTokens tokens) with
  | .ok (program, _) => .ok program
  | .error halt => .error halt

end MiniLang
