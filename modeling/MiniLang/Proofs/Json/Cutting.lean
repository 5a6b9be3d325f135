/-
  Cutting a value to a depth, and cutting it again.

  The marker that stands for what is cut off is an object with a value inside it, so a second cut
  may go through a marker that the first one has left.  It does no harm as long as the second cut
  is not deeper than the first one.

  1. **Parts** — the values directly inside a value.  Whatever holds of a value because it holds of
     its parts holds of every value (`induct`).
  2. **Cutting** — a value that fits is cut part by part, with one level less for each
     (`cut_eq`), and everything below follows from this equation.
  3. **Depths** — `v.atDepth n`: the values that stand `n` levels below `v`.  Cutting to a depth
     leaves exactly those values as they are that have nothing but markers just below it.
  4. **Paths** — what stands at the end of a path into a value that was cut is what stood there
     before, cut to what is left of the depth.
-/
import MiniLang.Json

namespace MiniLang

/-! ## Parts -/

namespace Datum

theorem cutAll_eq_map (room : Int) (items : List Datum) :
    cutAll room items = items.map (cut room) := by
  induction items with
  | nil => rfl
  | cons d rest ih => rw [cutAll, ih, List.map_cons]

theorem cutFields_eq_map (room : Int) (fields : List (String × Datum)) :
    cutFields room fields = fields.map fun field => (field.1, field.2.cut room) := by
  induction fields with
  | nil => rfl
  | cons field rest ih => rw [cutFields, ih, List.map_cons]

end Datum

namespace Json

/-- The values directly inside a value. -/
def parts : Json → List Json
  | arr items => items
  | obj fields => fields.map (·.2)
  | _ => []

/-- A value with each of its parts changed. -/
def mapParts (f : Json → Json) : Json → Json
  | arr items => arr (items.map f)
  | obj fields => obj (fields.map fun field => (field.1, f field.2))
  | j => j

theorem sizeOf_lt_of_mem_parts {j part : Json} (h : part ∈ j.parts) : sizeOf part < sizeOf j := by
  cases j with
  | arr items =>
    have hlt : sizeOf part < sizeOf items := List.sizeOf_lt_of_mem h
    rw [arr.sizeOf_spec]
    omega
  | obj fields =>
    obtain ⟨⟨key, _⟩, hfield, rfl⟩ := List.mem_map.mp h
    have hlt := List.sizeOf_lt_of_mem hfield
    rw [Prod.mk.sizeOf_spec] at hlt
    rw [obj.sizeOf_spec]
    dsimp only
    omega
  | _ => exact nomatch h

/-- What holds of a value because it holds of its parts holds of every value. -/
theorem induct {P : Json → Prop} (h : ∀ j, (∀ part ∈ j.parts, P part) → P j) (j : Json) : P j :=
  h j fun part _ => induct h part
termination_by sizeOf j
decreasing_by exact sizeOf_lt_of_mem_parts ‹_›

section

variable {f g : Json → Json}

theorem mapParts_mapParts (j : Json) : (j.mapParts f).mapParts g = j.mapParts (g ∘ f) := by
  cases j with
  | arr items => rw [mapParts, mapParts, mapParts, List.map_map]
  | obj fields =>
    rw [mapParts, mapParts, mapParts, List.map_map]
    rfl
  | _ => rfl

theorem mapParts_congr {j : Json} (h : ∀ part ∈ j.parts, f part = g part) :
    j.mapParts f = j.mapParts g := by
  cases j with
  | arr items => exact congrArg arr (List.map_congr_left h)
  | obj fields =>
    refine congrArg obj (List.map_congr_left fun field hfield => ?_)
    rw [h field.2 (List.mem_map_of_mem hfield)]
  | _ => rfl

theorem mapParts_id (j : Json) : j.mapParts id = j := by
  cases j with
  | arr items => rw [mapParts, List.map_id]
  | obj fields => exact congrArg obj (List.map_id fields)
  | _ => rfl

theorem parts_mapParts (j : Json) : (j.mapParts f).parts = j.parts.map f := by
  cases j with
  | obj fields =>
    rw [mapParts, parts, parts, List.map_map, List.map_map]
    rfl
  | _ => rfl

/-- Changing the parts changes nothing exactly if it changes no part. -/
theorem mapParts_eq_self_iff {j : Json} : j.mapParts f = j ↔ ∀ part ∈ j.parts, f part = part := by
  constructor
  · intro h
    have hparts : j.parts.map f = j.parts.map id := by
      rw [← parts_mapParts, h, List.map_id]
    exact List.map_inj_left.mp hparts
  · intro h
    exact (mapParts_congr h).trans (mapParts_id j)

end

/-! ## Cutting -/

theorem data_eq_map (items : List Json) : data items = items.map datum := by
  induction items with
  | nil => rfl
  | cons j rest ih => rw [data, ih, List.map_cons]

theorem entries_eq_map (fields : List (String × Json)) :
    entries fields = fields.map fun field => (field.1, field.2.datum) := by
  induction fields with
  | nil => rfl
  | cons field rest ih => rw [entries, ih, List.map_cons]

/-- A value that fits is cut part by part, with one level less. -/
theorem cut_eq (d : Int) (j : Json) :
    j.cut d = if d < 0 then marker else j.mapParts (cut (d - 1)) := by
  cases j with
  | arr items =>
    rw [cut, datum, Datum.cut, Datum.cutAll_eq_map, data_eq_map, List.map_map]
    rfl
  | obj fields =>
    rw [cut, datum, Datum.cut, Datum.cutFields_eq_map, entries_eq_map, List.map_map]
    rfl
  | _ => rfl

theorem cut_of_neg {d : Int} (h : d < 0) (j : Json) : j.cut d = marker := by
  rw [cut_eq, if_pos h]

theorem cut_of_nonneg {d : Int} (h : 0 ≤ d) (j : Json) : j.cut d = j.mapParts (cut (d - 1)) := by
  rw [cut_eq, if_neg (Int.not_lt.mpr h)]

/-- A cut undoes nothing of a deeper one, and the deeper one nothing of it. -/
theorem cut_cut (j : Json) : ∀ {d₁ d₂ : Int}, d₁ ≤ d₂ → (j.cut d₂).cut d₁ = j.cut d₁ := by
  induction j using induct with
  | h j ih =>
    intro d₁ d₂ hle
    by_cases hneg : d₁ < 0
    · rw [cut_of_neg hneg, cut_of_neg hneg]
    · have hd₁ : 0 ≤ d₁ := Int.not_lt.mp hneg
      have hd₂ : 0 ≤ d₂ := Int.le_trans hd₁ hle
      rw [cut_of_nonneg hd₂, cut_of_nonneg hd₁, cut_of_nonneg hd₁, mapParts_mapParts]
      exact mapParts_congr fun part hpart => ih part hpart (Int.sub_le_sub_right hle 1)

/-! ## Depths -/

/-- The values that stand so many levels below a value. -/
def atDepth : Nat → Json → List Json
  | 0, j => [j]
  | n + 1, j => j.parts.flatMap (atDepth n)

theorem forall_mem_atDepth_succ {P : Json → Prop} {n : Nat} {j : Json} :
    (∀ w ∈ j.atDepth (n + 1), P w) ↔ ∀ part ∈ j.parts, ∀ w ∈ part.atDepth n, P w := by
  constructor
  · intro h part hpart w hw
    exact h w (List.mem_flatMap.mpr ⟨part, hpart, hw⟩)
  · intro h w hw
    obtain ⟨part, hpart, hw⟩ := List.mem_flatMap.mp hw
    exact h part hpart w hw

/-- Cutting leaves a value as it is exactly if only markers stand just below the depth. -/
theorem cut_eq_self_iff : ∀ (d : Nat) (j : Json),
    j.cut d = j ↔ ∀ w ∈ j.atDepth (d + 1), w = marker := by
  intro d
  induction d with
  | zero =>
    intro j
    rw [cut_of_nonneg (Int.natCast_nonneg 0), mapParts_eq_self_iff, forall_mem_atDepth_succ]
    refine forall₂_congr fun part _ => ?_
    rw [cut_of_neg (by decide), atDepth, List.forall_mem_singleton, eq_comm]
  | succ d ih =>
    intro j
    rw [cut_of_nonneg (Int.natCast_nonneg _), mapParts_eq_self_iff, forall_mem_atDepth_succ]
    refine forall₂_congr fun part _ => ?_
    rw [Int.natCast_succ, Int.add_sub_cancel]
    exact ih part

/-! ## Paths -/

/-- One level down into a value. -/
inductive Step
  | item (i : Nat)
  | field (name : String)

/-- The part that a step leads to. -/
def part? : Step → Json → Option Json
  | .item i, arr items => items[i]?
  | .field name, obj fields => fields.lookup name
  | _, _ => none

/-- The value at the end of a path. -/
def at? : List Step → Json → Option Json
  | [], j => some j
  | step :: path, j => (j.part? step).bind (at? path)

/-- What a value is apart from its parts: for an array the number of its items, for an object the
    names of its fields, and anything else as it is. -/
def face (j : Json) : Json := j.mapParts fun _ => null

theorem lookup_mapEntries {f : Json → Json} (name : String) (fields : List (String × Json)) :
    (fields.map fun field => (field.1, f field.2)).lookup name = (fields.lookup name).map f := by
  induction fields with
  | nil => rfl
  | cons field rest ih =>
    rw [List.map_cons, List.lookup_cons, List.lookup_cons, ih]
    cases name == field.1 <;> rfl

theorem part?_mapParts {f : Json → Json} (step : Step) (j : Json) :
    (j.mapParts f).part? step = (j.part? step).map f := by
  cases j with
  | arr items =>
    cases step with
    | item i => exact List.getElem?_map
    | field name => rfl
  | obj fields =>
    cases step with
    | item i => rfl
    | field name => exact lookup_mapEntries name fields
  | _ => cases step <;> rfl

theorem at?_cut : ∀ (path : List Step) {d : Nat} (j : Json), path.length ≤ d →
    (j.cut d).at? path = (j.at? path).map (cut ((d : Int) - path.length)) := by
  intro path
  induction path with
  | nil =>
    intro d j _
    rw [List.length_nil, Int.natCast_zero, Int.sub_zero]
    rfl
  | cons step path ih =>
    intro d j hlen
    rw [List.length_cons] at hlen
    obtain ⟨d, rfl⟩ : ∃ k, d = k + 1 := ⟨d - 1, by omega⟩
    have hleft : ((d + 1 : Nat) : Int) - (step :: path).length = d - path.length := by
      rw [List.length_cons]
      omega
    rw [cut_of_nonneg (Int.natCast_nonneg _), at?, at?, part?_mapParts, hleft, Int.natCast_succ,
      Int.add_sub_cancel]
    cases j.part? step with
    | none => rfl
    | some part => exact ih part (by omega)

theorem face_cut {d : Int} (h : 0 ≤ d) (j : Json) : (j.cut d).face = j.face := by
  rw [cut_of_nonneg h, face, mapParts_mapParts]
  rfl

/-- **Cutting composes.**  Cutting twice, the second time no deeper than the first, is the second cut
    alone; so cutting again to the same depth changes nothing.  A value is left as it is exactly if
    only markers stand just below the depth, and so if nothing stands there.  And a path no longer
    than the depth leads to the same as before, but for what is cut off below it. -/
theorem cutting_composes (v : Json) :
    (∀ d₁ d₂ : Int, d₁ ≤ d₂ → (v.cut d₂).cut d₁ = v.cut d₁) ∧
    (∀ d : Int, (v.cut d).cut d = v.cut d) ∧
    (∀ d : Nat, v.cut d = v ↔ ∀ w ∈ v.atDepth (d + 1), w = marker) ∧
    (∀ d : Nat, v.atDepth (d + 1) = [] → v.cut d = v) ∧
    ∀ (d : Nat) (path : List Step), path.length ≤ d →
      (v.cut d).at? path = (v.at? path).map (cut ((d : Int) - path.length)) ∧
      ((v.cut d).at? path).map face = (v.at? path).map face := by
  refine ⟨fun d₁ d₂ => v.cut_cut, fun d => v.cut_cut (Int.le_refl d),
    fun d => cut_eq_self_iff d v, ?_, ?_⟩
  · intro d hnone
    refine (cut_eq_self_iff d v).mpr ?_
    rw [hnone]
    exact List.forall_mem_nil _
  · intro d path hlen
    refine ⟨at?_cut path v hlen, ?_⟩
    rw [at?_cut path v hlen, Option.map_map]
    exact Option.map_congr fun w _ => face_cut (by omega) w

/-- A list beside an object that looks like a marker. -/
def notched : Json := obj [("a", arr [int 1, obj []]), ("b", marker)]

theorem notched_cuts :
    notched.cut 1 = obj [("a", arr [marker, marker]), ("b", obj [("_truncated", marker)])] ∧
    (notched.cut 1).cut 0 = notched.cut 0 ∧
    -- the other way round, the deeper cut goes through the markers of the first one
    (notched.cut 0).cut 1 ≠ notched.cut 1 ∧
    notched.atDepth 3 = [] ∧ notched.cut 2 = notched ∧
    ((notched.cut 1).at? [.field "b"]).map face = some (obj [("_truncated", null)]) := by
  obtain ⟨hcut, -, -, hdeep, hpath⟩ := cutting_composes notched
  refine ⟨rfl, hcut 0 1 (by decide), ?_, rfl, hdeep 2 rfl, ?_⟩
  · intro h
    have hitem := congrArg (at? [.field "a"]) h
    cases hitem
  · exact (hpath 1 [.field "b"] (by decide)).2

end Json

end MiniLang
