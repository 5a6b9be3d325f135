/-
  Line ends of a text file.

  A file may end its lines with a line feed, a carriage return, or both in this order; read as a
  text, each of them becomes one line feed.
-/

namespace MiniLang.Text

/-- Every line end as a line feed. -/
def unifyNewlines : List Char → List Char
  | [] => []
  | '\r' :: '\n' :: rest => '\n' :: unifyNewlines rest
  | '\r' :: rest => '\n' :: unifyNewlines rest
  | c :: rest => c :: unifyNewlines rest

/-- The text that the bytes of a file hold in UTF-8, with unified line ends. -/
def ofBytes? (bytes : ByteArray) : Option String :=
  (String.fromUTF8? bytes).map fun s => String.ofList (unifyNewlines s.toList)

/-- No carriage return is left. -/
theorem cr_not_mem_unifyNewlines : ∀ cs : List Char, '\r' ∉ unifyNewlines cs := by
  intro cs
  fun_induction unifyNewlines cs with
  | case1 => simp
  | case2 rest ih => simp [ih]
  | case3 rest _ ih => simp [ih]
  | case4 c rest _ h ih =>
    simp only [List.mem_cons, not_or]
    exact ⟨fun hc => h hc.symm, ih⟩

/-- A text without carriage returns is left as it is. -/
theorem unifyNewlines_eq_self : ∀ {cs : List Char}, '\r' ∉ cs → unifyNewlines cs = cs := by
  intro cs h
  fun_induction unifyNewlines cs with
  | case1 => rfl
  | case2 rest ih => simp at h
  | case3 rest _ ih => simp at h
  | case4 c rest _ _ ih => rw [ih (fun hm => h (List.mem_cons_of_mem _ hm))]

end MiniLang.Text
