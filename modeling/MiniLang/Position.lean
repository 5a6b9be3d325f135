/-
  Places in a source text.

  A `Position` counts lines and columns from one and characters from zero.  Only the line feed
  starts a new line: a carriage return, a tab and the Unicode line separators each take one column
  like any other character.  A `Span` runs from the position of its first character to the
  position just after its last one.
-/

namespace MiniLang

/-- A place in a source text, between two characters. -/
structure Position where
  /-- One more than the number of line feeds before the place. -/
  line : Nat
  /-- One more than the number of characters since the last line feed. -/
  column : Nat
  /-- The number of characters before the place. -/
  index : Nat
  deriving DecidableEq, Inhabited

namespace Position

/-- Where every text begins. -/
def origin : Position := ⟨1, 1, 0⟩

/-- The place just after one more character. -/
def next (p : Position) (c : Char) : Position :=
  if c = '\n' then ⟨p.line + 1, 1, p.index + 1⟩ else ⟨p.line, p.column + 1, p.index + 1⟩

/-- The place just after a run of characters. -/
def after (p : Position) (cs : List Char) : Position := cs.foldl next p

@[simp] theorem after_nil (p : Position) : p.after [] = p := rfl

@[simp] theorem after_cons (p : Position) (c : Char) (cs : List Char) :
    p.after (c :: cs) = (p.next c).after cs := rfl

@[simp] theorem after_append (p : Position) (cs ds : List Char) :
    p.after (cs ++ ds) = (p.after cs).after ds := List.foldl_append

@[simp] theorem index_next (p : Position) (c : Char) : (p.next c).index = p.index + 1 := by
  unfold next; split <;> rfl

/-- The index counts characters. -/
theorem index_after : ∀ (p : Position) (cs : List Char), (p.after cs).index = p.index + cs.length := by
  intro p cs
  induction cs generalizing p with
  | nil => rfl
  | cons c cs ih => rw [after_cons, ih, index_next, List.length_cons]; omega

/-- The line counts line feeds. -/
theorem line_after : ∀ (p : Position) (cs : List Char),
    (p.after cs).line = p.line + cs.count '\n' := by
  intro p cs
  induction cs generalizing p with
  | nil => rfl
  | cons c cs ih =>
    rw [after_cons, ih]
    unfold next
    by_cases h : c = '\n'
    · subst h; simp; omega
    · simp [h]

end Position

/-- A stretch of source text. -/
structure Span where
  /-- Where its first character begins. -/
  start : Position
  /-- Just after its last character. -/
  stop : Position
  deriving DecidableEq, Inhabited

namespace Span

/-- The empty stretch at a place. -/
def empty (p : Position) : Span := ⟨p, p⟩

/-- From the start of `a` to the end of `b`. -/
def through (a b : Span) : Span := ⟨a.start, b.stop⟩

@[simp] theorem through_start (a b : Span) : (a.through b).start = a.start := rfl
@[simp] theorem through_stop (a b : Span) : (a.through b).stop = b.stop := rfl

end Span

end MiniLang
