/-
  What a text spells, wherever it stands.

  Cutting is greedy, so what a part of a text is divided into may depend on the text behind it.
  `Spells cs ts rest` says that the characters `cs`, with `rest` behind them, are divided into pieces
  that make the tokens `ts`.  Parts that stand one behind the other spell their tokens one behind the
  other (`Spells.append`), and a whole text that spells some tokens is lexed as them
  (`ofSource_of_spells`).

  1. **Words** — the token of a piece, without a place.
  2. **Spelling** — the relation, and how parts are put together.
  3. **Gaps** — blanks and complete comments, which spell nothing.
  4. **Single tokens** — signs that begin no longer sign, numbers and identifiers.
-/
import MiniLang.Proofs.Lexing.Words

namespace MiniLang.Token

open MiniLang.Text

/-! ## Words -/

namespace Piece

/-- The token that a piece makes, without its place. -/
def word? (piece : Piece) : Option Token :=
  piece.kind?.map fun kind => ⟨kind, String.ofList piece.text, .nowhere, piece.value?⟩

theorem map_located : ∀ (ps : List Piece) (p : Position), (located p ps).map (·.2) = ps := by
  intro ps
  induction ps with
  | nil => exact fun _ => rfl
  | cons piece ps ih =>
    intro p
    rw [located, List.map_cons, ih]

/-- Wherever some pieces stand, they make their words. -/
theorem alike_words (ps : List Piece) (p : Position) :
    Alike (ps.filterMap word?) ((located p ps).filterMap token?) := by
  have htoken : ∀ q : Position × Piece, (token? q).map Token.bare = q.2.word? := by
    intro q
    rw [token?, word?, Option.map_map]
    rfl
  have hword : ∀ piece : Piece, piece.word?.map Token.bare = piece.word? := by
    intro piece
    rw [word?, Option.map_map]
    rfl
  rw [Alike, List.map_filterMap, List.map_filterMap, funext hword, funext htoken]
  calc ps.filterMap word?
      = ((located p ps).map (·.2)).filterMap word? := by rw [map_located]
    _ = (located p ps).filterMap fun q => q.2.word? := List.filterMap_map

end Piece

/-! ## Spelling -/

/-- Some characters, the tokens that they spell, and what stands behind them. -/
inductive Spells : List Char → List Token → List Char → Prop
  | nil {rest} : Spells [] [] rest
  | cons {piece : Piece} {cs ts rest} : piece.Fits (cs ++ rest) → piece.Fine → Spells cs ts rest →
      Spells (piece.text ++ cs) (piece.word?.toList ++ ts) rest

namespace Spells

variable {cs ds rest : List Char} {ts us : List Token}

theorem of_fits {piece : Piece} (hfits : piece.Fits rest) (hfine : piece.Fine) :
    Spells piece.text piece.word?.toList rest := by
  have hone : Spells (piece.text ++ []) (piece.word?.toList ++ []) rest :=
    .cons (by rwa [List.nil_append]) hfine .nil
  rwa [List.append_nil, List.append_nil] at hone

/-- What stands behind the first part is the second one. -/
theorem append (h : Spells cs ts (ds ++ rest)) (h' : Spells ds us rest) :
    Spells (cs ++ ds) (ts ++ us) rest := by
  generalize hbehind : ds ++ rest = behind at h
  induction h with
  | nil => exact h'
  | cons hfits hfine _ ih =>
    subst hbehind
    rw [List.append_assoc, List.append_assoc]
    refine .cons ?_ hfine (ih rfl)
    rwa [List.append_assoc]

/-- A whole text is divided into the pieces that spell it. -/
theorem splits (h : Spells cs ts []) :
    ∃ ps, Piece.Splits cs ps ∧ (∀ piece ∈ ps, piece.Fine) ∧ ps.filterMap Piece.word? = ts := by
  generalize hbehind : ([] : List Char) = behind at h
  induction h with
  | nil => exact ⟨[], .nil, List.forall_mem_nil _, rfl⟩
  | @cons piece cs ts _ hfits hfine _ ih =>
    subst hbehind
    obtain ⟨ps, hsplits, hall, rfl⟩ := ih rfl
    rw [List.append_nil] at hfits
    refine ⟨piece :: ps, .cons hfits hsplits, List.forall_mem_cons.mpr ⟨hfine, hall⟩, ?_⟩
    rw [List.filterMap_cons]
    cases piece.word? <;> rfl

end Spells

/-- A source is lexed as the tokens that it spells. -/
theorem ofSource_of_spells {source : String} {ts : List Token} (h : Spells source.toList ts []) :
    ∃ us stop, ofSource source = .ok (us ++ [endAt stop]) ∧ Alike ts us := by
  obtain ⟨ps, hsplits, hfine, rfl⟩ := h.splits
  exact ⟨_, _, ofSource_of_splits hsplits hfine, Piece.alike_words ps _⟩

/-! ## Gaps -/

/-- A text that does not begin with a digit. -/
def NoDigit (rest : List Char) : Prop := ∀ d ∈ rest.head?, isDigit d = false

theorem noDigit_cons {c : Char} {cs : List Char} (hc : isDigit c = false) : NoDigit (c :: cs) := by
  intro d hd
  rwa [← Option.some.inj hd]

/-- Blanks and comments that are complete: a line with its line feed, a block with its end. -/
inductive Gap : List Char → Prop
  | nil : Gap []
  | blank {c cs} : isBlank c = true → Gap cs → Gap (c :: cs)
  | lineComment {body cs} : '\n' ∉ body → Gap cs → Gap ('/' :: '/' :: body ++ '\n' :: cs)
  | blockComment {body cs} : ¬ ['*', '/'] <:+: body ++ ['*'] → Gap cs →
      Gap ('/' :: '*' :: (body ++ ['*', '/']) ++ cs)

namespace Gap

variable {g rest : List Char}

/-- A gap spells nothing, whatever stands behind it. -/
theorem spells (h : Gap g) (rest : List Char) : Spells g [] rest := by
  have hblank : ∀ {c : Char} {cs : List Char}, isBlank c = true → Spells cs [] rest →
      Spells (c :: cs) [] rest := by
    intro c cs hc hcs
    exact (Spells.of_fits (.blank hc) ⟨nofun, nofun⟩).append hcs
  induction h with
  | nil => exact .nil
  | blank hc _ ih => exact hblank hc ih
  | @lineComment body cs hbody _ ih =>
    -- the line feed is no part of the comment, but a blank of its own
    refine (Spells.of_fits (.lineComment hbody ?_) ⟨nofun, nofun⟩).append (hblank (by decide) ih)
    intro d hd
    exact (Option.some.inj hd).symm
  | blockComment hbody _ ih =>
    exact (Spells.of_fits (.blockComment hbody) ⟨nofun, nofun⟩).append ih

/-- A gap does not go on with a number. -/
theorem noDigit (h : Gap g) (hrest : NoDigit rest) : NoDigit (g ++ rest) := by
  cases h with
  | nil => exact hrest
  | blank hc _ => exact noDigit_cons (not_digit_of_blank hc)
  | lineComment | blockComment => exact noDigit_cons (by decide)

/-- What is spelt where no digit follows is spelt in the same way with gaps around it. -/
theorem spells_around {g' cs : List Char} {ts : List Token} (hg : Gap g)
    (hcs : ∀ rest, NoDigit rest → Spells cs ts rest) (hg' : Gap g') (hrest : NoDigit rest) :
    Spells (g ++ (cs ++ g')) ts rest := by
  have hinner : Spells (cs ++ g') (ts ++ []) rest :=
    (hcs _ (hg'.noDigit hrest)).append (hg'.spells rest)
  rw [List.append_nil] at hinner
  exact (hg.spells _).append hinner

end Gap

/-! ## Single tokens -/

/-- The token of a sign of one character. -/
def ofSign (kind : Kind) (c : Char) : Token := ⟨kind, String.ofList [c], .nowhere, none⟩

/-- Signs of two characters begin with one of four. -/
theorem ofPair?_eq_none {c : Char} (hc : c ∉ ['=', '!', '<', '>']) (d : Char) :
    Kind.ofPair? c d = none := by
  have hall : ∀ entry ∈ pairs, entry.1.1 ∈ ['=', '!', '<', '>'] := by decide
  cases hpair : Kind.ofPair? c d with
  | none => rfl
  | some kind => exact absurd (hall _ (mem_of_lookup hpair)) hc

/-- A sign that begins neither a sign of two characters nor a comment may stand anywhere. -/
theorem spells_sign {c : Char} {kind : Kind} (hsign : Kind.ofSign? c = some kind)
    (halone : c ∉ ['=', '!', '<', '>', '/']) (rest : List Char) : Spells [c] [ofSign kind c] rest := by
  have hpair : c ∉ ['=', '!', '<', '>'] := fun h => halone (List.mem_append_left ['/'] h)
  have hslash : c ≠ '/' := by
    rintro rfl
    exact halone (by decide)
  have hfits : Piece.Fits ⟨.sign kind, [c]⟩ rest :=
    .sign hsign fun d _ => ⟨ofPair?_eq_none hpair d, fun h => hslash h.1⟩
  exact .of_fits hfits ⟨nofun, nofun⟩

/-- The token of a number. -/
def ofDigits (ds : List Char) : Token :=
  ⟨.int, String.ofList ds, .nowhere, some (Word.wrap (decimalValue ds))⟩

theorem value_ofDigits (ds : List Char) :
    (ofDigits ds).value = some (Word.wrap (decimalValue ds)) := rfl

/-- A number ends where no more digits follow. -/
theorem spells_number {ds rest : List Char} (hne : ds ≠ []) (hds : ∀ d ∈ ds, isDigit d = true)
    (hlimit : ds.length ≤ digitLimit) (hrest : NoDigit rest) :
    Spells ds [ofDigits ds] rest := by
  obtain ⟨c, more, rfl⟩ := List.exists_cons_of_ne_nil hne
  obtain ⟨hc, hmore⟩ := List.forall_mem_cons.mp hds
  have hfits : Piece.Fits ⟨.number, c :: more⟩ rest := .number hc hmore hrest
  exact .of_fits hfits ⟨nofun, fun _ => hlimit⟩

/-- The token of an identifier. -/
def ofIdentifier (cs : List Char) : Token :=
  ⟨.ofIdentifier (String.ofList cs), String.ofList cs, .nowhere, none⟩

/-- An identifier ends where nothing follows that continues a name. -/
theorem spells_identifier {c : Char} {more rest : List Char} (hc : isNameStart c = true)
    (hmore : ∀ d ∈ more, isNameRest d = true) (hrest : ∀ d ∈ rest.head?, isNameRest d = false) :
    Spells (c :: more) [ofIdentifier (c :: more)] rest := by
  have hfits : Piece.Fits ⟨.identifier, c :: more⟩ rest := .identifier hc hmore hrest
  exact .of_fits hfits ⟨nofun, nofun⟩

end MiniLang.Token
