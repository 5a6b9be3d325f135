/-
  Single tokens, and words with spaces between them.

  1. **From a source** — what is known of a token that lexing made: a number has a value, a word; a
     name is an identifier that is no keyword; and the end marker stands once, at the end.
  2. **Into a source** — `Readable t`: the lexeme of `t` alone, or with a space behind it, is one
     piece that makes `t` again.  Readable tokens with single spaces between them are lexed as
     themselves (`ofSource_intercalate`).
-/
import MiniLang.Machine.Eval
import MiniLang.Proofs.Lexing.Exact
import MiniLang.Proofs.Parsing.Alike
import MiniLang.Proofs.Parsing.Exact

namespace MiniLang.Token

open MiniLang.Text

/-! ## From a source -/

/-- What a reader returns is what it makes of its source. -/
theorem eq_ok_of_toOption {ε α : Type} {x : Except ε α} {a : α} (h : x.toOption = some a) :
    x = .ok a := by
  cases x with
  | error e => cases h
  | ok b => cases h; rfl

/-- A text that is read as a name. -/
def IsName (name : String) : Prop :=
  Kind.ofIdentifier name = .name ∧
    ∃ c cs, name.toList = c :: cs ∧ isNameStart c = true ∧ ∀ d ∈ cs, isNameRest d = true

/-- What is known of a token that lexing makes, other than the end marker. -/
structure FromSource (t : Token) : Prop where
  kind_ne : t.kind ≠ .eof
  number : t.kind = .int → ∃ v, t.value = some v ∧ Word.InRange v
  name : t.kind = .name → IsName t.lexeme
  print : t.kind = .kwPrint → t.lexeme = printName

/-- The kinds that identifiers have. -/
theorem ofIdentifier_cases (s : String) :
    Kind.ofIdentifier s = .name ∨ (s, Kind.ofIdentifier s) ∈ keywords := by
  rw [Kind.ofIdentifier]
  cases h : keywords.lookup s with
  | none => exact Or.inl rfl
  | some kind => exact Or.inr (mem_of_lookup h)

/-- The token of a sign is of a kind that needs nothing more. -/
theorem fromSource_of_sign {t : Token} :
    (∀ kind ∈ [Kind.eof, .int, .name, .kwPrint], t.kind ≠ kind) → FromSource t := by
  intro h
  exact {
    kind_ne := h .eof (by decide)
    number := fun hkind => absurd hkind (h .int (by decide))
    name := fun hkind => absurd hkind (h .name (by decide))
    print := fun hkind => absurd hkind (h .kwPrint (by decide)) }

theorem fromSource_of_fits {piece : Piece} {rest : List Char} {p : Position} {t : Token} :
    Piece.Fits piece rest → Piece.token? (p, piece) = some t → FromSource t := by
  intro hfits htoken
  obtain ⟨kind, hkind, rfl⟩ := Option.map_eq_some_iff.mp htoken
  cases hfits with
  | blank => cases hkind
  | lineComment => cases hkind
  | blockComment => cases hkind
  | openComment => cases hkind
  | number =>
    cases hkind
    exact {
      kind_ne := nofun
      number := fun _ => ⟨_, rfl, Word.wrap_inRange _⟩
      name := nofun
      print := nofun }
  | @identifier c more _ hc hmore =>
    cases hkind
    rcases ofIdentifier_cases (String.ofList (c :: more)) with hname | hkeyword
    · exact {
        kind_ne := by rw [hname]; exact nofun
        number := by rw [hname]; exact nofun
        name := fun _ => ⟨hname, c, more, String.toList_ofList, hc, hmore⟩
        print := by rw [hname]; exact nofun }
    · have hall : ∀ entry ∈ keywords, entry.2 ≠ .eof ∧ entry.2 ≠ .int ∧ entry.2 ≠ .name ∧
          (entry.2 = .kwPrint → entry.1 = printName) := by decide
      obtain ⟨heof, hint, hname, hprint⟩ := hall _ hkeyword
      exact {
        kind_ne := heof
        number := fun h => absurd h hint
        name := fun h => absurd h hname
        print := hprint }
  | pair hpair =>
    cases hkind
    have hall : ∀ entry ∈ pairs, ∀ kind ∈ [Kind.eof, .int, .name, .kwPrint], entry.2 ≠ kind := by
      decide
    exact fromSource_of_sign (hall _ (mem_of_lookup hpair))
  | sign hsign =>
    cases hkind
    have hall : ∀ entry ∈ signs, ∀ kind ∈ [Kind.eof, .int, .name, .kwPrint], entry.2 ≠ kind := by
      decide
    exact fromSource_of_sign (hall _ (mem_of_lookup hsign))

/-- The tokens of a source, and its end. -/
theorem fromSource_of_ofSource {source : String} {tokens : List Token} :
    ofSource source = .ok tokens →
    ∃ ts stop, tokens = ts ++ [endAt stop] ∧ ∀ t ∈ ts, FromSource t := by
  intro h
  obtain ⟨hfine, rfl⟩ := Piece.ofPieces_eq_ok_iff.mp h
  have hsplits := Piece.splits_ofText source.toList fun piece hp => (hfine piece hp).1
  refine ⟨_, _, rfl, ?_⟩
  intro t ht
  obtain ⟨⟨q, piece⟩, hmem, htoken⟩ := List.mem_filterMap.mp ht
  obtain ⟨rest, hfits⟩ := Piece.fits_of_mem hsplits piece (Piece.mem_of_located hmem)
  exact fromSource_of_fits hfits htoken

theorem endsOnce_of_fromSource {ts : List Token} {stop : Position} : (∀ t ∈ ts, FromSource t) →
    EndsOnce (ts ++ [endAt stop]) := by
  intro h
  exact ⟨ts, endAt stop, rfl, fun t ht => (h t ht).kind_ne, rfl⟩

/-! ## Into a source -/

/-- The lexeme alone, or with a space behind it, makes the token. -/
def Readable (t : Token) : Prop :=
  ∃ piece : Piece, piece.text = t.lexeme.toList ∧ piece.kind? = some t.kind ∧
    piece.value? = t.value ∧ piece.Fine ∧ ∀ rest, (∀ d ∈ rest.head?, d = ' ') → piece.Fits rest

/-- A readable token is made of its piece, wherever that stands. -/
theorem token_of_readable {t : Token} {piece : Piece} {p : Position} :
    piece.text = t.lexeme.toList → piece.kind? = some t.kind → piece.value? = t.value →
    ∃ u, Piece.token? (p, piece) = some u ∧ u.bare = t.bare := by
  intro htext hkind hvalue
  refine ⟨⟨t.kind, String.ofList piece.text, ⟨p, p.after piece.text⟩, piece.value?⟩, ?_, ?_⟩
  · rw [Piece.token?, hkind, Option.map_some]
  · rw [bare, htext, hvalue, String.ofList_toList]
    rfl

/-- By induction on the words: behind each of them stands a blank, or nothing. -/
theorem splits_intercalate : ∀ {ts : List Token}, (∀ t ∈ ts, Readable t) →
    ∃ ps, Piece.Splits (" ".intercalate (ts.map (·.lexeme))).toList ps ∧
      (∀ piece ∈ ps, piece.Fine) ∧
      ∀ p, Alike ((Piece.located p ps).filterMap Piece.token?) ts := by
  intro ts
  induction ts with
  | nil =>
    intro _
    exact ⟨[], .nil, List.forall_mem_nil _, fun p => rfl⟩
  | cons t rest ih =>
    intro h
    obtain ⟨⟨piece, htext, hkind, hvalue, hfine, hfits⟩, hrest⟩ := List.forall_mem_cons.mp h
    -- the last word has nothing behind it, every other one a blank
    cases rest with
    | nil =>
      refine ⟨[piece], ?_, List.forall_mem_singleton.mpr hfine, ?_⟩
      · have hsplits := Piece.Splits.cons (hfits [] (by simp)) .nil
        rw [htext, List.append_nil] at hsplits
        rw [List.map_cons, List.map_nil, String.intercalate_singleton]
        exact hsplits
      · intro p
        obtain ⟨u, hu, hbare⟩ := token_of_readable htext hkind hvalue
        rw [Piece.located, List.filterMap_cons, hu]
        show [u.bare] = [t.bare]
        rw [hbare]
    | cons t' rest =>
      obtain ⟨ps, hsplits, hall, halike⟩ := ih hrest
      have hblank : Piece.Fine ⟨.blank, [' ']⟩ := by simp [Piece.Fine, Piece.Known]
      refine ⟨piece :: ⟨.blank, [' ']⟩ :: ps, ?_,
        List.forall_mem_cons.mpr ⟨hfine, List.forall_mem_cons.mpr ⟨hblank, hall⟩⟩, ?_⟩
      · rw [List.map_cons, List.map_cons, String.intercalate_cons_cons, String.toList_append,
          String.toList_append, List.append_assoc, ← htext, ← List.map_cons]
        refine .cons (hfits _ ?_) (.cons (.blank (by decide)) hsplits)
        intro d hd
        exact (Option.some.inj hd).symm
      · intro p
        obtain ⟨u, hu, hbare⟩ := token_of_readable htext hkind hvalue
        rw [Piece.located, List.filterMap_cons, hu, Piece.located, List.filterMap_cons]
        show u.bare :: _ = t.bare :: _
        rw [hbare]
        exact congrArg (t.bare :: ·) (halike _)

/-- Readable tokens with spaces between them are read as themselves. -/
theorem ofSource_intercalate {ts : List Token} : (∀ t ∈ ts, Readable t) →
    ∃ us stop, ofSource (" ".intercalate (ts.map (·.lexeme))) = .ok (us ++ [endAt stop]) ∧
      Alike ts us := by
  intro h
  obtain ⟨ps, hsplits, hfine, halike⟩ := splits_intercalate h
  exact ⟨_, _, ofSource_of_splits hsplits hfine, (halike _).symm⟩

end MiniLang.Token
