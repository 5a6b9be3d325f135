/-
  JSON values, and structured values cut to a depth.

  A `Datum` is what the program has to say: plain values, lists, dictionaries, and nodes, which are
  named records.  `Datum.cut` writes one as a `Json` value.  The root stands at depth zero, and
  every list element, dictionary entry and field stands one deeper than what holds it; whatever
  would stand deeper than a given bound is replaced by one and the same marker.  A node becomes an
  object that also tells the node's name, and the name itself is never replaced.
-/

namespace MiniLang

/-- JSON values.  Numbers are written in decimal, so a number is an integer or an integer with some
    of its digits after the point. -/
inductive Json
  | null
  | bool (b : Bool)
  | int (n : Int)
  | decimal (digits : Int) (places : Nat)
  | str (s : String)
  | arr (items : List Json)
  | obj (fields : List (String × Json))
  deriving Inhabited

namespace Json

/-- The value of a field. -/
def field? (name : String) : Json → Option Json
  | obj fields => fields.lookup name
  | _ => none

/-- Null where there is nothing. -/
def ofOption {α : Type} (f : α → Json) : Option α → Json
  | none => null
  | some a => f a

/-- What stands where a value lies too deep. -/
def marker : Json := obj [("_truncated", bool true)]

end Json

/-- Structured values. -/
inductive Datum
  | null
  | bool (b : Bool)
  | int (n : Int)
  | decimal (digits : Int) (places : Nat)
  | str (s : String)
  | list (items : List Datum)
  | dict (entries : List (String × Datum))
  /-- A record of a named kind. -/
  | node (kind : String) (fields : List (String × Datum))
  deriving Inhabited

namespace Datum

/-- Null where there is nothing. -/
def ofOption {α : Type} (f : α → Datum) : Option α → Datum
  | none => null
  | some a => f a

mutual

/-- Writes a value as JSON, where so many more levels fit below it; for a negative number the value
    itself does not fit. -/
def cut (room : Int) : Datum → Json
  | null => if room < 0 then .marker else .null
  | bool b => if room < 0 then .marker else .bool b
  | int n => if room < 0 then .marker else .int n
  | decimal digits places => if room < 0 then .marker else .decimal digits places
  | str s => if room < 0 then .marker else .str s
  | list items => if room < 0 then .marker else .arr (cutAll (room - 1) items)
  | dict entries => if room < 0 then .marker else .obj (cutFields (room - 1) entries)
  | node kind fields =>
    if room < 0 then .marker else .obj (("_type", .str kind) :: cutFields (room - 1) fields)

/-- Writes the elements of a list. -/
def cutAll (room : Int) : List Datum → List Json
  | [] => []
  | d :: rest => cut room d :: cutAll room rest

/-- Writes the entries of a dictionary or the fields of a node. -/
def cutFields (room : Int) : List (String × Datum) → List (String × Json)
  | [] => []
  | (key, d) :: rest => (key, cut room d) :: cutFields room rest

end

end Datum

namespace Json

mutual

/-- A JSON value is a structured value without nodes. -/
def datum : Json → Datum
  | null => .null
  | bool b => .bool b
  | int n => .int n
  | decimal digits places => .decimal digits places
  | str s => .str s
  | arr items => .list (data items)
  | obj fields => .dict (entries fields)

/-- The elements of an array. -/
def data : List Json → List Datum
  | [] => []
  | j :: rest => datum j :: data rest

/-- The fields of an object. -/
def entries : List (String × Json) → List (String × Datum)
  | [] => []
  | (key, j) :: rest => (key, datum j) :: entries rest

end

/-- A JSON value cut to a depth. -/
def cut (depth : Int) (j : Json) : Json := j.datum.cut depth

end Json

end MiniLang
