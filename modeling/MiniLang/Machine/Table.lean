/-
  Finite tables of named entries.

  A table is a list of names with their entries, each name once, in the order in which the names
  were first set.  Setting a name that is there changes its entry in place; setting a new one adds
  it at the end.
-/

namespace MiniLang

/-- Names with entries. -/
abbrev Table (α : Type) := List (String × α)

namespace Table

variable {α : Type}

/-- The entry of a name. -/
def get? : Table α → String → Option α
  | [], _ => none
  | (key, a) :: rest, name => if key = name then some a else get? rest name

/-- Does the table have an entry for a name? -/
def has (t : Table α) (name : String) : Bool := (t.get? name).isSome

/-- Gives a name an entry, in place of the one it has. -/
def set : Table α → String → α → Table α
  | [], name, a => [(name, a)]
  | (key, b) :: rest, name, a =>
    if key = name then (key, a) :: rest else (key, b) :: set rest name a

/-- Gives the first names the first entries, one after the other, so that a name that comes twice
    keeps the entry it gets last. -/
def ofPairs (names : List String) (entries : List α) : Table α :=
  (names.zip entries).foldl (fun t entry => t.set entry.1 entry.2) []

@[simp] theorem get?_set_self : ∀ (t : Table α) (name : String) (a : α),
    (t.set name a).get? name = some a := by
  intro t name a
  induction t with
  | nil => simp [set, get?]
  | cons entry rest ih =>
    obtain ⟨key, b⟩ := entry
    by_cases h : key = name
    · simp [set, get?, h]
    · simp [set, get?, h, ih]

theorem get?_set_of_ne : ∀ (t : Table α) {name other : String} (a : α), other ≠ name →
    (t.set name a).get? other = t.get? other := by
  intro t name other a hne
  induction t with
  | nil => simp [set, get?, Ne.symm hne]
  | cons entry rest ih =>
    obtain ⟨key, b⟩ := entry
    by_cases h : key = name
    · subst h; simp [set, get?, Ne.symm hne]
    · by_cases h' : key = other
      · subst h'; simp [set, get?, h]
      · simp [set, get?, h, h', ih]

theorem get?_set (t : Table α) (name : String) (a : α) (other : String) :
    (t.set name a).get? other = if other = name then some a else t.get? other := by
  by_cases h : other = name
  · rw [if_pos h, h, get?_set_self]
  · rw [if_neg h, get?_set_of_ne t a h]

/-- Setting a name twice is setting it to the later entry. -/
theorem set_set : ∀ (t : Table α) (name : String) (a b : α),
    (t.set name a).set name b = t.set name b := by
  intro t name a b
  induction t with
  | nil => simp [set]
  | cons entry rest ih =>
    obtain ⟨key, c⟩ := entry
    by_cases h : key = name
    · simp [set, h]
    · simp [set, h, ih]

end Table

end MiniLang
