/-
  A tree that is written as JSON can be read back.

  Every node of a tree becomes an object that tells its class first, and nothing else in a tree
  becomes an object.  So no object of it can be mistaken for the marker of a cut, and what is
  missing, a list and a name can be told from a node.

  1. **Depth** — `Datum.depth`: the levels of a value below its own.  A cut leaves a marker in a
     value of nodes exactly if the value is deeper than the cut (`contains_marker_iff`).
  2. **Reading values** — a value of nodes that no cut has shortened is read back by `Json.read`
     (`read_cut`).
  3. **Reading trees** — one function for each sort of node undoes the one that writes it, so from
     what is written of a program that fits the program itself is read (`uncut_programs_decode`).
-/
import MiniLang.Json.Shape
import MiniLang.Proofs.Json.Cutting
import Mathlib.Data.List.Basic
import Mathlib.Order.MinMax

namespace MiniLang

/-! ## Depth -/

namespace Datum

/-- The values directly inside a value. -/
def parts : Datum → List Datum
  | list items => items
  | dict fields | node _ fields => fields.map (·.2)
  | _ => []

mutual

/-- The levels below a value: one more for each item and each field than there are below that.  The
    class of a node is never cut, and is no field. -/
def depth : Datum → Nat
  | list items => depthOfAll items
  | dict fields | node _ fields => depthOfFields fields
  | _ => 0

/-- The levels from some items on. -/
def depthOfAll : List Datum → Nat
  | [] => 0
  | d :: rest => max (depth d + 1) (depthOfAll rest)

/-- The levels from some fields on. -/
def depthOfFields : List (String × Datum) → Nat
  | [] => 0
  | (_, d) :: rest => max (depth d + 1) (depthOfFields rest)

end

theorem lt_depthOfAll_iff {n : Nat} {items : List Datum} :
    n < depthOfAll items ↔ ∃ d ∈ items, n ≤ d.depth := by
  induction items with
  | nil => simp [depthOfAll]
  | cons d rest ih => rw [depthOfAll, lt_max_iff, ih, List.exists_mem_cons_iff, Nat.lt_succ_iff]

theorem lt_depthOfFields_iff {n : Nat} {fields : List (String × Datum)} :
    n < depthOfFields fields ↔ ∃ d ∈ fields.map (·.2), n ≤ d.depth := by
  induction fields with
  | nil => simp [depthOfFields]
  | cons field rest ih =>
    rw [depthOfFields, lt_max_iff, ih, List.map_cons, List.exists_mem_cons_iff, Nat.lt_succ_iff]

/-- A value is deeper than its parts by one level. -/
theorem lt_depth_iff {n : Nat} {d : Datum} : n < d.depth ↔ ∃ part ∈ d.parts, n ≤ part.depth := by
  cases d with
  | list items => exact lt_depthOfAll_iff
  | dict fields => exact lt_depthOfFields_iff
  | node kind fields => exact lt_depthOfFields_iff
  | _ => simp [depth, parts]

/-- Every object in the value is a node. -/
inductive Tagged : Datum → Prop
  | mk {d : Datum} : (∀ fields, d ≠ dict fields) → (∀ part ∈ d.parts, Tagged part) → Tagged d

end Datum

/-- The value stands somewhere in another one. -/
inductive Json.Contains (w : Json) : Json → Prop
  | self : Contains w w
  | part {j part : Json} : part ∈ j.parts → Contains w part → Contains w j

namespace Datum

/-! ### Markers -/

theorem cut_list {room : Int} (h : 0 ≤ room) (items : List Datum) :
    (list items).cut room = .arr (items.map (cut (room - 1))) := by
  rw [cut, if_neg (Int.not_lt.mpr h), cutAll_eq_map]

theorem cut_node {room : Int} (h : 0 ≤ room) (kind : String) (fields : List (String × Datum)) :
    (node kind fields).cut room =
      .obj (("_type", .str kind) :: fields.map fun field => (field.1, field.2.cut (room - 1))) := by
  rw [cut, if_neg (Int.not_lt.mpr h), cutFields_eq_map]

/-- The parts of what is cut are the parts cut with one level less, and the class of a node. -/
theorem mem_parts_cut {room : Int} {d : Datum} (hd : d.Tagged) (h : 0 ≤ room) {j : Json} :
    j ∈ (d.cut room).parts ↔ (∃ kind fields, d = node kind fields ∧ j = .str kind) ∨
      ∃ part ∈ d.parts, part.cut (room - 1) = j := by
  have hneg : ¬ room < 0 := Int.not_lt.mpr h
  cases d with
  | list items =>
    rw [cut_list h, Json.parts, List.mem_map]
    constructor
    · exact .inr
    · rintro (⟨_, _, heq, -⟩ | hpart)
      · cases heq
      · exact hpart
  | node kind fields =>
    rw [cut_node h, Json.parts, List.map_cons, List.map_map, List.mem_cons, List.mem_map]
    constructor
    · rintro (rfl | ⟨field, hfield, rfl⟩)
      · exact .inl ⟨kind, fields, rfl, rfl⟩
      · exact .inr ⟨field.2, List.mem_map_of_mem hfield, rfl⟩
    · rintro (⟨_, _, heq, rfl⟩ | ⟨part, hpart, rfl⟩)
      · cases heq
        exact .inl rfl
      · obtain ⟨field, hfield, rfl⟩ := List.mem_map.mp hpart
        exact .inr ⟨field, hfield, rfl⟩
  | dict fields =>
    cases hd with
    | mk hdict _ => exact absurd rfl (hdict fields)
  | _ =>
    rw [cut, if_neg hneg]
    constructor
    · intro hj
      cases hj
    · rintro (⟨_, _, heq, -⟩ | ⟨_, hpart, -⟩)
      · cases heq
      · cases hpart

/-- What fits does not look like a marker, which tells no class. -/
theorem cut_ne_marker {room : Int} {d : Datum} (hd : d.Tagged) (h : 0 ≤ room) :
    d.cut room ≠ .marker := by
  have hneg : ¬ room < 0 := Int.not_lt.mpr h
  cases d with
  | list items =>
    rw [cut_list h]
    intro heq
    cases heq
  | node kind fields =>
    rw [cut_node h]
    intro heq
    have hkey := congrArg (fun j => (j.field? "_type").isSome) heq
    cases hkey
  | dict fields =>
    cases hd with
    | mk hdict _ => exact absurd rfl (hdict fields)
  | _ =>
    rw [cut, if_neg hneg]
    intro heq
    cases heq

/-- A cut leaves a marker in a value of nodes exactly if the value is deeper than the cut. -/
theorem contains_marker_iff {d : Datum} (hd : d.Tagged) :
    ∀ room : Int, Json.Contains .marker (d.cut room) ↔ room < d.depth := by
  induction hd with
  | @mk d hdict hparts ih =>
    have hd : d.Tagged := .mk hdict hparts
    intro room
    by_cases hneg : room < 0
    · have hcut : d.cut room = .marker := by cases d <;> rw [cut, if_pos hneg]
      rw [hcut]
      exact ⟨fun _ => by omega, fun _ => .self⟩
    · have h : 0 ≤ room := Int.not_lt.mp hneg
      obtain ⟨n, rfl⟩ := Int.eq_ofNat_of_zero_le h
      have hless : ∀ part ∈ d.parts,
          (Json.Contains .marker (part.cut ((n : Int) - 1)) ↔ n ≤ part.depth) := by
        intro part hpart
        rw [ih part hpart]
        omega
      rw [Int.ofNat_lt, lt_depth_iff]
      constructor
      · intro hcontains
        generalize hj : d.cut (n : Int) = j at hcontains
        cases hcontains with
        | self => exact absurd hj (cut_ne_marker hd h)
        | part hmem hinner =>
          rw [← hj] at hmem
          rcases (mem_parts_cut hd h).mp hmem with ⟨kind, _, _, rfl⟩ | ⟨part, hpart, rfl⟩
          · -- a name contains nothing
            cases hinner with
            | part hnone _ => cases hnone
          · exact ⟨part, hpart, (hless part hpart).mp hinner⟩
      · rintro ⟨part, hpart, hle⟩
        exact .part ((mem_parts_cut hd h).mpr (.inr ⟨part, hpart, rfl⟩))
          ((hless part hpart).mpr hle)

end Datum

/-! ## Reading values -/

namespace Json

mutual

/-- Reads a value, with a node for each object that tells a class first. -/
def read : Json → Datum
  | null => .null
  | bool b => .bool b
  | int n => .int n
  | decimal digits places => .decimal digits places
  | str s => .str s
  | arr items => .list (readAll items)
  | obj (("_type", str kind) :: fields) => .node kind (readFields fields)
  | obj fields => .dict (readFields fields)

def readAll : List Json → List Datum
  | [] => []
  | j :: rest => read j :: readAll rest

def readFields : List (String × Json) → List (String × Datum)
  | [] => []
  | (key, j) :: rest => (key, read j) :: readFields rest

end

theorem readAll_eq_map (items : List Json) : readAll items = items.map read := by
  induction items with
  | nil => rfl
  | cons j rest ih => rw [readAll, ih, List.map_cons]

theorem readFields_eq_map (fields : List (String × Json)) :
    readFields fields = fields.map fun field => (field.1, field.2.read) := by
  induction fields with
  | nil => rfl
  | cons field rest ih => rw [readFields, ih, List.map_cons]

end Json

/-- A value of nodes that is no deeper than the cut is read back. -/
theorem Datum.read_cut {d : Datum} (hd : d.Tagged) :
    ∀ room : Int, d.depth ≤ room → (d.cut room).read = d := by
  induction hd with
  | @mk d hdict _ ih =>
    intro room hle
    have h : 0 ≤ room := by omega
    have hparts : ∀ part ∈ d.parts, (part.cut (room - 1)).read = part := by
      intro part hpart
      have hless : part.depth < d.depth := lt_depth_iff.mpr ⟨part, hpart, Nat.le_refl _⟩
      exact ih part hpart (room - 1) (by omega)
    cases d with
    | list items =>
      rw [cut_list h, Json.read, Json.readAll_eq_map, List.map_map]
      exact congrArg list ((List.map_congr_left hparts).trans (List.map_id items))
    | node kind fields =>
      rw [cut_node h, Json.read, Json.readFields_eq_map, List.map_map]
      refine congrArg (node kind) ((List.map_congr_left ?_).trans (List.map_id fields))
      intro field hfield
      exact congrArg (Prod.mk field.1) (hparts field.2 (List.mem_map_of_mem hfield))
    | dict fields => exact absurd rfl (hdict fields)
    | _ => rw [cut, if_neg (Int.not_lt.mpr h), Json.read]

/-! ## Trees are made of nodes -/

namespace Datum

theorem Tagged.int (n : Int) : (Datum.int n).Tagged := .mk nofun nofun

theorem Tagged.str (s : String) : (Datum.str s).Tagged := .mk nofun nofun

theorem Tagged.null : Datum.null.Tagged := .mk nofun nofun

theorem Tagged.list {items : List Datum} (h : ∀ d ∈ items, d.Tagged) : (list items).Tagged :=
  .mk nofun h

theorem Tagged.node {kind : String} {fields : List (String × Datum)}
    (h : ∀ d ∈ fields.map (·.2), d.Tagged) : (node kind fields).Tagged :=
  .mk nofun h

end Datum

theorem Position.tagged_datum (p : Position) : p.datum.Tagged := by
  refine .node fun d hd => ?_
  simp only [List.map_cons, List.map_nil, List.mem_cons, List.not_mem_nil, or_false] at hd
  obtain rfl | rfl | rfl := hd <;> exact .int _

theorem Span.tagged_datum (s : Span) : s.datum.Tagged := by
  refine .node fun d hd => ?_
  simp only [List.map_cons, List.map_nil, List.mem_cons, List.not_mem_nil, or_false] at hd
  obtain rfl | rfl := hd <;> exact Position.tagged_datum _

/-- A node of a tree is one if what it holds beside its place is. -/
theorem Datum.Tagged.treeNode {label : String} {span : Span} {fields : List (String × Datum)}
    (h : ∀ d ∈ fields.map (·.2), d.Tagged) : (Datum.treeNode label span fields).Tagged := by
  refine .node fun d hd => ?_
  rw [List.map_cons, List.mem_cons] at hd
  obtain rfl | hd := hd
  · exact span.tagged_datum
  · exact h d hd

mutual

theorem Expr.tagged_datum (e : Expr) : e.datum.Tagged := by
  cases e with
  | lit span value => exact .treeNode (by simpa using .int value)
  | var span name => exact .treeNode (by simpa using .str name)
  | binary span left op right =>
    exact .treeNode (by simpa using ⟨left.tagged_datum, .str op.label, right.tagged_datum⟩)
  | call span name args =>
    exact .treeNode (by simpa using ⟨.str name, .list (Expr.tagged_data args)⟩)
  | stray span label => exact .treeNode nofun

theorem Expr.tagged_data (es : List Expr) : ∀ d ∈ Expr.data es, d.Tagged := by
  cases es with
  | nil => exact nofun
  | cons e rest => exact List.forall_mem_cons.mpr ⟨e.tagged_datum, Expr.tagged_data rest⟩

end

mutual

theorem Stmt.tagged_datum (a : Stmt) : a.datum.Tagged := by
  cases a with
  | block span body => exact .treeNode (by simpa using .list (Stmt.tagged_data body))
  | expr span e => exact .treeNode (by simpa using e.tagged_datum)
  | assign span name value => exact .treeNode (by simpa using ⟨.str name, value.tagged_datum⟩)
  | ifElse span cond yes no =>
    cases no with
    | none => exact .treeNode (by simpa using ⟨cond.tagged_datum, yes.tagged_datum, .null⟩)
    | some no =>
      exact .treeNode (by simpa using ⟨cond.tagged_datum, yes.tagged_datum, no.tagged_datum⟩)
  | loop span cond body => exact .treeNode (by simpa using ⟨cond.tagged_datum, body.tagged_datum⟩)
  | ret span value =>
    cases value with
    | none => exact .treeNode (by simpa using .null)
    | some e => exact .treeNode (by simpa [Datum.ofOption] using e.tagged_datum)
  | stray span label => exact .treeNode nofun

theorem Stmt.tagged_data (body : List Stmt) : ∀ d ∈ Stmt.data body, d.Tagged := by
  cases body with
  | nil => exact nofun
  | cons a rest => exact List.forall_mem_cons.mpr ⟨a.tagged_datum, Stmt.tagged_data rest⟩

end

theorem FunctionDef.tagged_datum (f : FunctionDef) : f.datum.Tagged := by
  refine .treeNode ?_
  have hparams : ∀ d ∈ f.params.map Datum.str, d.Tagged :=
    List.forall_mem_map.mpr fun name _ => .str name
  simpa using ⟨.str f.name, .list hparams, f.body.tagged_datum⟩

theorem Program.tagged_datum (p : Program) : p.datum.Tagged := by
  refine .treeNode ?_
  have hfunctions : ∀ d ∈ p.functions.map FunctionDef.datum, d.Tagged :=
    List.forall_mem_map.mpr fun f _ => f.tagged_datum
  simpa using ⟨.list hfunctions, p.body.tagged_datum⟩

/-! ## Reading trees -/

def Position.ofDatum? : Datum → Option Position
  | .node "Position"
      [("line", .int (.ofNat line)), ("column", .int (.ofNat column)),
       ("index", .int (.ofNat index))] => some ⟨line, column, index⟩
  | _ => none

def Span.ofDatum? : Datum → Option Span
  | .node "Span" [("start", start), ("end", stop)] => do
    return ⟨← Position.ofDatum? start, ← Position.ofDatum? stop⟩
  | _ => none

theorem Span.ofDatum?_datum (s : Span) : Span.ofDatum? s.datum = some s := rfl

mutual

/-- Reads an expression; a node that has a place and nothing else is a node of some other class. -/
def Expr.ofDatum? : Datum → Option Expr
  | .node "IntLiteral" [("span", s), ("value", .int v)] => do
    return .lit (← Span.ofDatum? s) v
  | .node "VariableExpression" [("span", s), ("name", .str name)] => do
    return .var (← Span.ofDatum? s) name
  | .node "BinaryExpression" [("span", s), ("left", l), ("operator", .str op), ("right", r)] => do
    return .binary (← Span.ofDatum? s) (← Expr.ofDatum? l) (← Token.Kind.ofLabel? op)
      (← Expr.ofDatum? r)
  | .node "CallExpression" [("span", s), ("name", .str name), ("arguments", .list args)] => do
    return .call (← Span.ofDatum? s) name (← Expr.ofData? args)
  | .node label [("span", s)] => do return .stray (← Span.ofDatum? s) label
  | _ => none

def Expr.ofData? : List Datum → Option (List Expr)
  | [] => some []
  | d :: rest => do return (← Expr.ofDatum? d) :: (← Expr.ofData? rest)

end

mutual

theorem Expr.ofDatum?_datum (e : Expr) : Expr.ofDatum? e.datum = some e := by
  cases e with
  | lit span value => rfl
  | var span name => rfl
  | binary span left op right =>
    rw [Expr.datum, Datum.treeNode, Expr.ofDatum?, left.ofDatum?_datum, right.ofDatum?_datum,
      Token.Kind.ofLabel?_label]
    rfl
  | call span name args =>
    rw [Expr.datum, Datum.treeNode, Expr.ofDatum?, Expr.ofData?_data]
    rfl
  | stray span label =>
    rw [Expr.datum, Datum.treeNode, Expr.ofDatum?]
    rfl

theorem Expr.ofData?_data (es : List Expr) : Expr.ofData? (Expr.data es) = some es := by
  cases es with
  | nil => rfl
  | cons e rest =>
    rw [Expr.data, Expr.ofData?, e.ofDatum?_datum, Expr.ofData?_data rest]
    rfl

end

/-- Reads what may be missing. -/
def Datum.toOption? {α : Type} (read : Datum → Option α) : Datum → Option (Option α)
  | .null => some none
  | d => (read d).map some

mutual

/-- Reads a statement; a node that has a place and nothing else is a node of some other class. -/
def Stmt.ofDatum? : Datum → Option Stmt
  | .node "BlockStatement" [("span", s), ("statements", .list body)] => do
    return .block (← Span.ofDatum? s) (← Stmt.ofData? body)
  | .node "ExpressionStatement" [("span", s), ("expression", e)] => do
    return .expr (← Span.ofDatum? s) (← Expr.ofDatum? e)
  | .node "AssignmentStatement" [("span", s), ("name", .str name), ("value", e)] => do
    return .assign (← Span.ofDatum? s) name (← Expr.ofDatum? e)
  | .node "IfStatement"
      [("span", s), ("condition", cond), ("then_branch", yes), ("else_branch", .null)] => do
    return .ifElse (← Span.ofDatum? s) (← Expr.ofDatum? cond) (← Stmt.ofDatum? yes) none
  | .node "IfStatement"
      [("span", s), ("condition", cond), ("then_branch", yes), ("else_branch", no)] => do
    return .ifElse (← Span.ofDatum? s) (← Expr.ofDatum? cond) (← Stmt.ofDatum? yes)
      (some (← Stmt.ofDatum? no))
  | .node "WhileStatement" [("span", s), ("condition", cond), ("body", body)] => do
    return .loop (← Span.ofDatum? s) (← Expr.ofDatum? cond) (← Stmt.ofDatum? body)
  | .node "ReturnStatement" [("span", s), ("value", value)] => do
    return .ret (← Span.ofDatum? s) (← value.toOption? Expr.ofDatum?)
  | .node label [("span", s)] => do return .stray (← Span.ofDatum? s) label
  | _ => none

def Stmt.ofData? : List Datum → Option (List Stmt)
  | [] => some []
  | d :: rest => do return (← Stmt.ofDatum? d) :: (← Stmt.ofData? rest)

end

theorem Expr.toOption?_datum (value : Option Expr) :
    (Datum.ofOption Expr.datum value).toOption? Expr.ofDatum? = some value := by
  cases value with
  | none => rfl
  | some e =>
    have hsome : (Expr.ofDatum? e.datum).map some = some (some e) := by
      rw [e.ofDatum?_datum, Option.map_some]
    cases e <;> exact hsome

mutual

theorem Stmt.ofDatum?_datum (a : Stmt) : Stmt.ofDatum? a.datum = some a := by
  cases a with
  | block span body =>
    rw [Stmt.datum, Datum.treeNode, Stmt.ofDatum?, Stmt.ofData?_data]
    rfl
  | expr span e =>
    rw [Stmt.datum, Datum.treeNode, Stmt.ofDatum?, e.ofDatum?_datum]
    rfl
  | assign span name value =>
    rw [Stmt.datum, Datum.treeNode, Stmt.ofDatum?, value.ofDatum?_datum]
    rfl
  | ifElse span cond yes no =>
    cases no with
    | none =>
      rw [Stmt.datum, Datum.treeNode, Stmt.ofDatum?, cond.ofDatum?_datum, yes.ofDatum?_datum]
      rfl
    | some no =>
      have hnode : no.datum ≠ .null := by
        cases no with
        | ifElse _ _ _ no => cases no <;> exact nofun
        | _ => exact nofun
      rw [Stmt.datum, Datum.treeNode, Stmt.ofDatum?, cond.ofDatum?_datum, yes.ofDatum?_datum,
        no.ofDatum?_datum]
      · rfl
      · exact hnode
  | loop span cond body =>
    rw [Stmt.datum, Datum.treeNode, Stmt.ofDatum?, cond.ofDatum?_datum, body.ofDatum?_datum]
    rfl
  | ret span value =>
    rw [Stmt.datum, Datum.treeNode, Stmt.ofDatum?, Expr.toOption?_datum]
    rfl
  | stray span label =>
    rw [Stmt.datum, Datum.treeNode, Stmt.ofDatum?]
    rfl

theorem Stmt.ofData?_data (body : List Stmt) : Stmt.ofData? (Stmt.data body) = some body := by
  cases body with
  | nil => rfl
  | cons a rest =>
    rw [Stmt.data, Stmt.ofData?, a.ofDatum?_datum, Stmt.ofData?_data rest]
    rfl

end

/-! ### Programs -/

def Datum.str? : Datum → Option String
  | .str s => some s
  | _ => none

theorem Datum.str?_str (s : String) : (Datum.str s).str? = some s := rfl

def FunctionDef.ofDatum? : Datum → Option FunctionDef
  | .node "FunctionDef"
      [("span", s), ("name", .str name), ("parameters", .list params), ("body", body)] => do
    return ⟨← Span.ofDatum? s, name, ← params.mapM Datum.str?, ← Stmt.ofDatum? body⟩
  | _ => none

def Program.ofDatum? : Datum → Option Program
  | .node "ProgramNode" [("span", s), ("functions", .list functions), ("body", body)] => do
    return ⟨← Span.ofDatum? s, ← functions.mapM FunctionDef.ofDatum?, ← Stmt.ofDatum? body⟩
  | _ => none

/-- Reads a program that was written as JSON. -/
def Program.ofJson? (j : Json) : Option Program := Program.ofDatum? j.read

/-- A list is read back if each of its items is. -/
theorem mapM_map_of_forall {α β : Type} {write : α → β} {read : β → Option α}
    (h : ∀ a, read (write a) = some a) (items : List α) :
    (items.map write).mapM read = some items := by
  induction items with
  | nil => rfl
  | cons a rest ih =>
    rw [List.map_cons, List.mapM_cons, h, ih]
    rfl

theorem FunctionDef.ofDatum?_datum (f : FunctionDef) : FunctionDef.ofDatum? f.datum = some f := by
  rw [FunctionDef.datum, Datum.treeNode, FunctionDef.ofDatum?, mapM_map_of_forall Datum.str?_str,
    f.body.ofDatum?_datum]
  rfl

theorem Program.ofDatum?_datum (p : Program) : Program.ofDatum? p.datum = some p := by
  rw [Program.datum, Datum.treeNode, Program.ofDatum?,
    mapM_map_of_forall FunctionDef.ofDatum?_datum, p.body.ofDatum?_datum]
  rfl

theorem Program.ofJson?_cut (p : Program) {room : Int} (h : p.datum.depth ≤ room) :
    Program.ofJson? (p.datum.cut room) = some p := by
  rw [Program.ofJson?, Datum.read_cut p.tagged_datum room h, p.ofDatum?_datum]

/-- **A tree that is not cut is not lost.**  From what is written of a program that is no deeper than
    the cut, one function reads the program back, with every class, field, operator and place; so
    no two such programs are written alike.  And something of a program is cut off exactly if it is
    deeper than the cut. -/
theorem uncut_programs_decode :
    (∀ (p : Program) (room : Int), p.datum.depth ≤ room →
      Program.ofJson? (p.datum.cut room) = some p) ∧
    (∀ (p q : Program) (room : Int), p.datum.depth ≤ room → q.datum.depth ≤ room →
      p.datum.cut room = q.datum.cut room → p = q) ∧
    (∀ (p : Program) (room : Int),
      Json.Contains .marker (p.datum.cut room) ↔ room < p.datum.depth) := by
  refine ⟨fun p room => p.ofJson?_cut, ?_, fun p room => Datum.contains_marker_iff p.tagged_datum _⟩
  intro p q room hp hq heq
  have hread : some p = some q := by rw [← p.ofJson?_cut hp, heq, q.ofJson?_cut hq]
  exact Option.some.inj hread

/-- A program that returns something, or nothing. -/
def answering (value : Option Expr) : Program :=
  let s : Span := .empty .origin
  ⟨s, [⟨s, "f", ["x"], .block s [.ret s value]⟩], .block s []⟩

theorem answering_decodes :
    (answering none).datum.depth = 8 ∧
    Program.ofJson? ((answering none).datum.cut 8) = some (answering none) ∧
    (answering none).datum.cut 9 ≠ (answering (some (.lit (.empty .origin) 0))).datum.cut 9 ∧
    Json.Contains .marker ((answering none).datum.cut 7) ∧
    ¬ Json.Contains .marker ((answering none).datum.cut 8) := by
  obtain ⟨hread, hinj, hcut⟩ := uncut_programs_decode
  refine ⟨by decide, hread _ 8 (by decide), ?_, (hcut _ 7).mpr (by decide), ?_⟩
  · intro h
    have heq := hinj _ _ 9 (by decide) (by decide) h
    cases heq
  · exact fun h => absurd ((hcut _ 8).mp h) (by decide)

end MiniLang
