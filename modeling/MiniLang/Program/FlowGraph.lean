/-
  The straight-line graph of a function: an entry, one node for each statement at the top of the
  body, and an exit, each leading to the next.
-/
import MiniLang.Program

namespace MiniLang

/-- A node, numbered from one, with the numbers of the nodes it leads to. -/
structure FlowNode where
  id : Nat
  label : String
  outs : List Nat
  deriving DecidableEq

namespace FlowGraph

/-- A row of nodes, each leading to the next. -/
def row : Nat → List String → List FlowNode
  | _, [] => []
  | id, [label] => [⟨id, label, []⟩]
  | id, label :: rest => ⟨id, label, [id + 1]⟩ :: row (id + 1) rest

/-- The graph of a function. -/
def ofFunction (f : FunctionDef) : List FlowNode :=
  row 1 ("entry" :: f.body.inside.map (·.label) ++ ["exit"])

@[simp] theorem length_row : ∀ (id : Nat) (labels : List String),
    (row id labels).length = labels.length := by
  intro id labels
  fun_induction row id labels with
  | case1 => rfl
  | case2 => rfl
  | case3 id label rest _ ih => simp [ih]

/-- Two nodes more than the body has statements. -/
theorem length_ofFunction (f : FunctionDef) :
    (ofFunction f).length = f.body.inside.length + 2 := by
  simp [ofFunction]

end FlowGraph

end MiniLang
