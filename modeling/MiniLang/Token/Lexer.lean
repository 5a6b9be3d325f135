/-
  From source text to tokens.

  The pieces of the source become tokens one after the other, while the position advances over
  the text of every piece, blanks and comments included.  Two things stop it, and the one that
  comes first in the source is reported: a character that means nothing, and a number that is
  longer than numbers may be.  A list of tokens always ends with one end marker, placed just
  after the last character.
-/
import MiniLang.Token.Piece
import MiniLang.Word

namespace MiniLang

/-- Why a source text has no tokens. -/
inductive LexError
  /-- A character outside identifiers, numbers, signs, blanks and comments. -/
  | unknownCharacter (c : Char) (span : Span)
  /-- A number with more digits than a number may have. -/
  | oversizedNumber (digits : Nat)
  deriving DecidableEq

namespace Token

open MiniLang.Text

/-- The most digits a number may have; leading zeros count. -/
def digitLimit : Nat := 4300

/-- The token that a piece makes at a position: `none` for blanks and comments. -/
def ofPiece (p : Position) (piece : Piece) : Except LexError (Option Token) :=
  let span : Span := ⟨p, p.after piece.text⟩
  let lexeme := String.ofList piece.text
  match piece.cls with
  | .blank | .comment => .ok none
  | .number =>
    if digitLimit < piece.text.length then .error (.oversizedNumber piece.text.length)
    else .ok (some ⟨.int, lexeme, span, some (Word.wrap (decimalValue piece.text))⟩)
  | .identifier => .ok (some ⟨.ofIdentifier lexeme, lexeme, span, none⟩)
  | .sign kind => .ok (some ⟨kind, lexeme, span, none⟩)
  | .unknown c => .error (.unknownCharacter c span)

/-- The tokens of a sequence of pieces that begins at a position, with the end marker. -/
def ofPieces (p : Position) : List Piece → Except LexError (List Token)
  | [] => .ok [endAt p]
  | piece :: rest =>
    match ofPiece p piece with
    | .error e => .error e
    | .ok none => ofPieces (p.after piece.text) rest
    | .ok (some token) =>
      match ofPieces (p.after piece.text) rest with
      | .error e => .error e
      | .ok tokens => .ok (token :: tokens)

/-- The tokens of a text given as its characters. -/
def ofChars (cs : List Char) : Except LexError (List Token) :=
  ofPieces .origin (Piece.ofText cs)

/-- The tokens of a source text. -/
def ofSource (source : String) : Except LexError (List Token) := ofChars source.toList

end Token

end MiniLang
