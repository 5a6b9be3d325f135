/-
  Cutting a source text into pieces.

  Every text, well formed or not, falls into a sequence of pieces: blanks, comments, numbers,
  identifiers, signs, and single characters that mean nothing.  Cutting is greedy: a piece reaches as
  far as its class allows, and `Piece.cut` looks at the next two characters to choose the class.

  1. **Cutting** — `Piece.cut c cs` is the piece that begins at `c` and what is left after it.
  2. **Nothing is lost** — a piece and the rest are the text that was cut (`cut_text_append`), a
     piece is never empty (`cut_text_ne_nil`), so cutting again and again ends, and the texts of
     all pieces in order are the source (`flatten_pieces`).
-/
import MiniLang.Token
import MiniLang.Text.Blank
import MiniLang.Text.Numeral

namespace MiniLang.Token

open MiniLang.Text

/-- What a piece of source text is. -/
inductive Piece.Class
  | blank | comment | number | identifier | sign (kind : Kind) | unknown (c : Char)
  deriving DecidableEq

/-- A piece of source text. -/
structure Piece where
  cls : Piece.Class
  text : List Char
  deriving DecidableEq

namespace Piece

/-! ## Cutting one piece -/

/-- Splits after the first `*/`; a comment that is never closed takes everything. -/
def closeComment : List Char → List Char × List Char
  | [] => ([], [])
  | '*' :: '/' :: rest => (['*', '/'], rest)
  | c :: rest => let (inside, outside) := closeComment rest; (c :: inside, outside)

/-- The longest run of characters of a class at the front, after a first one, and the rest. -/
def run (cls : Class) (more : Char → Bool) (c : Char) (cs : List Char) : Piece × List Char :=
  (⟨cls, c :: cs.takeWhile more⟩, cs.dropWhile more)

/-- A piece that is a single character. -/
def single (cls : Class) (c : Char) (cs : List Char) : Piece × List Char := (⟨cls, [c]⟩, cs)

/-- A piece of the one or two characters that make a sign, or one that means nothing. -/
def cutSign (c : Char) : List Char → Piece × List Char
  | [] => single ((Kind.ofSign? c).elim (.unknown c) .sign) c []
  | d :: cs =>
    match Kind.ofPair? c d with
    | some kind => (⟨.sign kind, [c, d]⟩, cs)
    | none => single ((Kind.ofSign? c).elim (.unknown c) .sign) c (d :: cs)

/-- The piece at the front of a text that begins with `c`, and what is left. -/
def cut (c : Char) (cs : List Char) : Piece × List Char :=
  if isBlank c then single .blank c cs
  else if c = '/' ∧ cs.head? = some '/' then run .comment (· ≠ '\n') c cs
  else if c = '/' ∧ cs.head? = some '*' then
    let (inside, outside) := closeComment cs.tail
    (⟨.comment, '/' :: '*' :: inside⟩, outside)
  else if isDigit c then run .number isDigit c cs
  else if isNameStart c then run .identifier isNameRest c cs
  else cutSign c cs

/-! ## Nothing is lost -/

theorem closeComment_append : ∀ cs : List Char,
    (closeComment cs).1 ++ (closeComment cs).2 = cs := by
  intro cs
  fun_induction closeComment cs with
  | case1 => rfl
  | case2 => rfl
  | case3 c rest _ inside outside h ih => rw [h] at ih; simpa using ih

/-- A piece and what is left are the text that was cut. -/
theorem cut_text_append (c : Char) (cs : List Char) :
    (cut c cs).1.text ++ (cut c cs).2 = c :: cs := by
  unfold cut
  split
  · rfl
  split
  · simp [run, List.takeWhile_append_dropWhile]
  split
  · next _ h =>
    obtain ⟨rfl, hstar⟩ := h
    cases cs with
    | nil => simp at hstar
    | cons d ds =>
      simp only [List.head?_cons, Option.some.injEq] at hstar
      subst hstar
      simp [closeComment_append]
  split
  · simp [run, List.takeWhile_append_dropWhile]
  split
  · simp [run, List.takeWhile_append_dropWhile]
  · cases cs with
    | nil => rfl
    | cons d ds => unfold cutSign; dsimp only; split <;> rfl

/-- A piece is never empty. -/
theorem cut_text_ne_nil (c : Char) (cs : List Char) : (cut c cs).1.text ≠ [] := by
  unfold cut
  split
  · simp [single]
  split
  · simp [run]
  split
  · simp
  split
  · simp [run]
  split
  · simp [run]
  · cases cs with
    | nil => simp [cutSign, single]
    | cons d ds => unfold cutSign; dsimp only; split <;> simp [single]

/-- What is left is shorter than what was cut. -/
theorem cut_rest_length_lt (c : Char) (cs : List Char) :
    (cut c cs).2.length < (c :: cs).length := by
  have hlen := congrArg List.length (cut_text_append c cs)
  have hpos : 0 < (cut c cs).1.text.length := List.length_pos_iff.mpr (cut_text_ne_nil c cs)
  rw [List.length_append] at hlen
  omega

/-! ## Cutting a whole text -/

/-- The pieces of a text, in order. -/
def ofText : List Char → List Piece
  | [] => []
  | c :: cs => (cut c cs).1 :: ofText (cut c cs).2
termination_by cs => cs.length
decreasing_by exact cut_rest_length_lt c cs

@[simp] theorem ofText_nil : ofText [] = [] := by rw [ofText]

theorem ofText_cons (c : Char) (cs : List Char) :
    ofText (c :: cs) = (cut c cs).1 :: ofText (cut c cs).2 := by rw [ofText]

/-- The pieces of a text hold all of it, in order. -/
theorem flatten_pieces : ∀ cs : List Char, ((ofText cs).map (·.text)).flatten = cs := by
  intro cs
  fun_induction ofText cs with
  | case1 => rfl
  | case2 c cs ih => rw [List.map_cons, List.flatten_cons, ih, cut_text_append]

end Piece

end MiniLang.Token
