/-
  Tokens: the identifiers, numbers and signs a program is made of.

  `Token.Kind` names the 27 kinds.  Three tables say which texts are reserved: `keywords`,
  `pairs` (signs of two characters) and `signs` (signs of one).  A token keeps the text it was
  read from and where it stood; a number also keeps its value, already wrapped to a word.
-/
import MiniLang.Position

namespace MiniLang

namespace Token

/-- The kinds of tokens. -/
inductive Kind
  | eof | int | name
  | kwIf | kwElse | kwWhile | kwFunc | kwReturn | kwPrint
  | plus | minus | star | slash | percent
  | assign | eq | neq | lt | lte | gt | gte
  | lparen | rparen | lbrace | rbrace | comma | semi
  deriving DecidableEq, Inhabited

namespace Kind

/-- The name of a kind, as messages spell it. -/
def label : Kind → String
  | eof => "END"
  | int => "INT"
  | name => "ID"
  | kwIf => "IF"
  | kwElse => "ELSE"
  | kwWhile => "WHILE"
  | kwFunc => "FUNC"
  | kwReturn => "RETURN"
  | kwPrint => "PRINT"
  | plus => "PLUS"
  | minus => "MINUS"
  | star => "STAR"
  | slash => "SLASH"
  | percent => "PERCENT"
  | assign => "ASSIGN"
  | eq => "EQ"
  | neq => "NEQ"
  | lt => "LT"
  | lte => "LTE"
  | gt => "GT"
  | gte => "GTE"
  | lparen => "LPAREN"
  | rparen => "RPAREN"
  | lbrace => "LBRACE"
  | rbrace => "RBRACE"
  | comma => "COMMA"
  | semi => "SEMI"

/-- Every kind, once. -/
def all : List Kind :=
  [eof, int, name, kwIf, kwElse, kwWhile, kwFunc, kwReturn, kwPrint, plus, minus, star, slash,
   percent, assign, eq, neq, lt, lte, gt, gte, lparen, rparen, lbrace, rbrace, comma, semi]

/-- The kind with a given name. -/
def ofLabel? (s : String) : Option Kind := all.find? fun k => k.label == s

theorem mem_all (k : Kind) : k ∈ all := by cases k <;> decide

/-- Reading a kind's name gives the kind back. -/
theorem ofLabel?_label (k : Kind) : ofLabel? k.label = some k := by cases k <;> decide

end Kind

/-! ## Reserved texts -/

/-- The identifiers that are no names. -/
def keywords : List (String × Kind) :=
  [("if", .kwIf), ("else", .kwElse), ("while", .kwWhile), ("func", .kwFunc),
   ("return", .kwReturn), ("print", .kwPrint)]

/-- The signs of two characters; they win over the signs of one. -/
def pairs : List ((Char × Char) × Kind) :=
  [(('=', '='), .eq), (('!', '='), .neq), (('<', '='), .lte), (('>', '='), .gte)]

/-- The signs of one character. -/
def signs : List (Char × Kind) :=
  [('+', .plus), ('-', .minus), ('*', .star), ('/', .slash), ('%', .percent), ('=', .assign),
   ('<', .lt), ('>', .gt), ('(', .lparen), (')', .rparen), ('{', .lbrace), ('}', .rbrace),
   (',', .comma), (';', .semi)]

/-- What an identifier is: a keyword if the whole of it is one, and a name otherwise. -/
def Kind.ofIdentifier (s : String) : Kind := (keywords.lookup s).getD .name

/-- The kind of a sign of two characters. -/
def Kind.ofPair? (c d : Char) : Option Kind := pairs.lookup (c, d)

/-- The kind of a sign of one character. -/
def Kind.ofSign? (c : Char) : Option Kind := signs.lookup c

/-- Is this the kind of a keyword? -/
def Kind.isKeyword (k : Kind) : Bool := keywords.any fun entry => entry.2 == k

end Token

/-! ## Tokens -/

/-- A token with its place in the source. -/
structure Token where
  kind : Token.Kind
  /-- The text it was read from; empty at the end of the input. -/
  lexeme : String
  span : Span
  /-- The value of a number, as a word. -/
  value : Option Int
  deriving DecidableEq, Inhabited

namespace Token

/-- The token that marks the end of the input, at a place. -/
def endAt (p : Position) : Token := ⟨.eof, "", .empty p, none⟩

/-- How a message names a token. -/
def describe (t : Token) : String :=
  if t.kind = .eof then "END" else t.kind.label ++ " '" ++ t.lexeme ++ "'"

/-- The groups an editor colours differently. -/
inductive Highlight
  | keyword | literal | identifier
  deriving DecidableEq

/-- The name of a group. -/
def Highlight.label : Highlight → String
  | keyword => "keyword"
  | literal => "literal"
  | identifier => "identifier"

/-- The group of a token; signs and the end of the input have none. -/
def highlight? (t : Token) : Option Highlight :=
  if t.kind.isKeyword then some .keyword
  else if t.kind = .int then some .literal
  else if t.kind = .name then some .identifier
  else none

end Token

end MiniLang
