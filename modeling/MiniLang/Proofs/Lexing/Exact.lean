/-
  The tokens of a text are the pieces of its greedy division.

  1. **Pieces in place** — `located` goes through a division with the position at hand;
     `Piece.token?` is the token of a piece in its place, and blanks and comments have none.
  2. **Making tokens** — `ofPieces_eq_ok_iff`: the pieces become these tokens, unless one of them
     means nothing or is an oversized number.
  3. **Slices** — the place of a token covers its lexeme in the source.
  4. **Lexing** — `ofSource_exact` puts the parts together for a text without oversized runs of
     digits.
-/
import MiniLang.Proofs.Lexing.Splits
import MiniLang.Token.Lexer

namespace MiniLang.Token

open MiniLang.Text

namespace Piece

/-! ## Pieces in place -/

/-- The kind of token that a piece makes. -/
def kind? (piece : Piece) : Option Kind :=
  match piece.cls with
  | .number => some .int
  | .identifier => some (.ofIdentifier (String.ofList piece.text))
  | .sign kind => some kind
  | .blank | .comment | .unknown _ => none

/-- The value of a number, folded into a word. -/
def value? (piece : Piece) : Option Int :=
  match piece.cls with
  | .number => some (Word.wrap (decimalValue piece.text))
  | _ => none

/-- The token that a piece makes in its place. -/
def token? (p : Position × Piece) : Option Token :=
  p.2.kind?.map fun kind =>
    ⟨kind, String.ofList p.2.text, ⟨p.1, p.1.after p.2.text⟩, p.2.value?⟩

theorem span_of_token? {q : Position} {piece : Piece} {t : Token} (h : token? (q, piece) = some t) :
    t.span = ⟨q, q.after piece.text⟩ := by
  obtain ⟨kind, -, rfl⟩ := Option.map_eq_some_iff.mp h
  rfl

/-- Pieces that stand one behind the other from a position on, each with its own position. -/
def located (p : Position) : List Piece → List (Position × Piece)
  | [] => []
  | piece :: rest => (p, piece) :: located (p.after piece.text) rest

/-- The text that some pieces make up. -/
def texts (ps : List Piece) : List Char := (ps.map (·.text)).flatten

theorem texts_cons (piece : Piece) (ps : List Piece) :
    texts (piece :: ps) = piece.text ++ texts ps := rfl

theorem texts_append (ps qs : List Piece) : texts (ps ++ qs) = texts ps ++ texts qs := by
  rw [texts, List.map_append, List.flatten_append]
  rfl

/-- A piece in its place has some of the text before it and some behind it. -/
theorem text_of_located : ∀ {ps : List Piece} {p q : Position} {piece : Piece},
    (q, piece) ∈ located p ps →
    ∃ before behind, texts ps = before ++ piece.text ++ behind ∧ q = p.after before := by
  intro ps
  induction ps with
  | nil =>
    intro p q piece h
    cases h
  | cons first rest ih =>
    intro p q piece h
    rcases List.mem_cons.mp h with heq | h
    · cases heq
      exact ⟨[], texts rest, rfl, rfl⟩
    · obtain ⟨before, behind, htexts, hq⟩ := ih h
      refine ⟨first.text ++ before, behind, ?_, ?_⟩
      · rw [texts_cons, htexts]
        simp only [List.append_assoc]
      · rw [Position.after_append]
        exact hq

theorem mem_of_located : ∀ {ps : List Piece} {p q : Position} {piece : Piece},
    (q, piece) ∈ located p ps → piece ∈ ps := by
  intro ps
  induction ps with
  | nil =>
    intro p q piece h
    cases h
  | cons first rest ih =>
    intro p q piece h
    rcases List.mem_cons.mp h with heq | h
    · cases heq
      exact List.mem_cons_self
    · exact List.mem_cons_of_mem _ (ih h)

/-- Every piece of a list has its place. -/
theorem exists_located : ∀ {ps : List Piece} (p : Position) {piece : Piece}, piece ∈ ps →
    ∃ q, (q, piece) ∈ located p ps := by
  intro ps
  induction ps with
  | nil =>
    intro p piece h
    cases h
  | cons first rest ih =>
    intro p piece h
    rcases List.mem_cons.mp h with rfl | h
    · exact ⟨p, List.mem_cons_self⟩
    · obtain ⟨q, hq⟩ := ih (p.after first.text) h
      exact ⟨q, List.mem_cons_of_mem _ hq⟩

/-! ## Making tokens -/

/-- A piece that is known, and not oversized. -/
def Fine (piece : Piece) : Prop :=
  Known piece ∧ (piece.cls = .number → piece.text.length ≤ digitLimit)

theorem ofPiece_of_fine {piece : Piece} : Fine piece →
    ∀ p, ofPiece p piece = .ok (token? (p, piece)) := by
  rintro ⟨hknown, hsize⟩ p
  obtain ⟨cls, text⟩ := piece
  cases cls with
  | number =>
    have hle : ¬ digitLimit < text.length := Nat.not_lt.mpr (hsize rfl)
    simp only [ofPiece, if_neg hle]
    rfl
  | unknown c => exact absurd rfl (hknown c)
  | blank => rfl
  | comment => rfl
  | identifier => rfl
  | sign kind => rfl

theorem fine_of_ofPiece {piece : Piece} {p : Position} {t : Option Token} :
    ofPiece p piece = .ok t → Fine piece := by
  intro h
  obtain ⟨cls, text⟩ := piece
  cases cls with
  | number =>
    refine ⟨nofun, fun _ => ?_⟩
    simp only [ofPiece] at h
    split at h
    · cases h
    · next hle => exact Nat.not_lt.mp hle
  | unknown c => cases h
  | blank => exact ⟨nofun, nofun⟩
  | comment => exact ⟨nofun, nofun⟩
  | identifier => exact ⟨nofun, nofun⟩
  | sign kind => exact ⟨nofun, nofun⟩

/-- Pieces become tokens exactly if all of them are fine, and then their own ones in order. -/
theorem ofPieces_eq_ok_iff : ∀ {ps : List Piece} {p : Position} {ts : List Token},
    ofPieces p ps = .ok ts ↔ (∀ piece ∈ ps, Fine piece) ∧
      ts = (located p ps).filterMap token? ++ [endAt (p.after (texts ps))] := by
  intro ps
  induction ps with
  | nil =>
    intro p ts
    rw [ofPieces, Except.ok.injEq, eq_comm]
    exact ⟨fun h => ⟨nofun, h⟩, fun h => h.2⟩
  | cons piece rest ih =>
    intro p ts
    rw [List.forall_mem_cons, located, List.filterMap_cons, texts_cons, Position.after_append,
      ofPieces]
    -- a piece that is not fine stops both sides, whatever follows it
    by_cases hfine : Fine piece
    · rw [ofPiece_of_fine hfine p]
      cases ht : token? (p, piece) with
      | none =>
        rw [ih]
        exact ⟨fun h => ⟨⟨hfine, h.1⟩, h.2⟩, fun h => ⟨h.1.2, h.2⟩⟩
      | some t =>
        cases hrest : ofPieces (p.after piece.text) rest with
        | error e =>
          constructor
          · intro h
            cases h
          · rintro ⟨⟨_, hall⟩, _⟩
            have hok := (ih (p := p.after piece.text)).mpr ⟨hall, rfl⟩
            rw [hrest] at hok
            cases hok
        | ok us =>
          obtain ⟨hall, rfl⟩ := ih.mp hrest
          constructor
          · intro h
            cases h
            exact ⟨⟨hfine, hall⟩, rfl⟩
          · rintro ⟨_, rfl⟩
            rfl
    · constructor
      · intro h
        cases hpiece : ofPiece p piece with
        | error e =>
          rw [hpiece] at h
          cases h
        | ok t => exact absurd (fine_of_ofPiece hpiece) hfine
      · exact fun h => absurd h.1.1 hfine

/-! ## Divisions -/

theorem texts_of_splits {cs : List Char} {ps : List Piece} : Splits cs ps → texts ps = cs := by
  intro h
  obtain ⟨rfl, _⟩ := splits_iff.mp h
  exact flatten_pieces cs

theorem infix_of_mem {ps : List Piece} {piece : Piece} : piece ∈ ps → piece.text <:+: texts ps := by
  intro h
  exact List.infix_of_mem_flatten (List.mem_map_of_mem h)

/-- The pieces of a division fit. -/
theorem fits_of_mem {cs : List Char} {ps : List Piece} : Splits cs ps →
    ∀ piece ∈ ps, ∃ rest, Fits piece rest := by
  intro h
  induction h with
  | nil => exact nofun
  | @cons first rest ps hfits _ ih => exact List.forall_mem_cons.mpr ⟨⟨rest, hfits⟩, ih⟩

/-- A number is a run of digits. -/
theorem digits_of_fits {piece : Piece} {rest : List Char} : Fits piece rest →
    piece.cls = .number → ∀ c ∈ piece.text, isDigit c = true := by
  intro h hnumber
  cases h <;> cases hnumber
  next hc hmore _ => exact List.forall_mem_cons.mpr ⟨hc, hmore⟩

/-- An identifier is a keyword exactly if the whole of it is one. -/
theorem ofIdentifier_eq_iff {s : String} {keyword : Kind} : keyword.isKeyword = true →
    (Kind.ofIdentifier s = keyword ↔ (s, keyword) ∈ keywords) := by
  intro hkeyword
  constructor
  · intro h
    rw [Kind.ofIdentifier] at h
    cases hlookup : keywords.lookup s with
    | none =>
      rw [hlookup, Option.getD_none] at h
      rw [← h] at hkeyword
      exact absurd hkeyword (by decide)
    | some kind =>
      rw [hlookup, Option.getD_some] at h
      rw [← h]
      exact mem_of_lookup hlookup
  · intro h
    have hall : ∀ entry ∈ keywords, Kind.ofIdentifier entry.1 = entry.2 := by decide
    exact hall (s, keyword) h

/-- A piece that makes no identifier is spelt unlike every keyword. -/
theorem ne_keyword_of_fits {piece : Piece} {rest : List Char} {kind : Kind} : Fits piece rest →
    piece.cls ≠ .identifier → piece.kind? = some kind →
    kind.isKeyword = false ∧ ∀ entry ∈ keywords, entry.1.toList ≠ piece.text := by
  intro h hcls hkind
  cases h with
  | blank => cases hkind
  | lineComment => cases hkind
  | blockComment => cases hkind
  | openComment => cases hkind
  | identifier => exact absurd rfl hcls
  | number hc =>
    cases hkind
    have hall : ∀ entry ∈ keywords, entry.1.toList.head?.any isDigit = false := by
      decide +kernel
    refine ⟨rfl, fun entry hentry heq => ?_⟩
    have hnot := hall entry hentry
    rw [heq, List.head?_cons, Option.any_some, hc] at hnot
    cases hnot
  | pair hpair =>
    cases hkind
    have hall : ∀ entry ∈ pairs, entry.2.isKeyword = false ∧
        ∀ keyword ∈ keywords, keyword.1.toList ≠ [entry.1.1, entry.1.2] := by
      decide +kernel
    exact hall _ (mem_of_lookup hpair)
  | sign hsign =>
    cases hkind
    have hall : ∀ entry ∈ signs, entry.2.isKeyword = false ∧
        ∀ keyword ∈ keywords, keyword.1.toList ≠ [entry.1] := by
      decide +kernel
    exact hall _ (mem_of_lookup hsign)

/-- In a text without oversized runs of digits, what is known is fine. -/
theorem fine_of_splits {cs : List Char} {ps : List Piece} :
    (∀ run, run <:+: cs → (∀ c ∈ run, isDigit c = true) → run.length ≤ digitLimit) →
    Splits cs ps → ∀ piece ∈ ps, Fine piece := by
  intro hshort h piece hp
  refine ⟨(splits_iff.mp h).2 piece hp, fun hnumber => ?_⟩
  have hinfix := infix_of_mem hp
  rw [texts_of_splits h] at hinfix
  obtain ⟨rest, hfits⟩ := fits_of_mem h piece hp
  exact hshort piece.text hinfix (digits_of_fits hfits hnumber)

end Piece

/-! ## Slices -/

/-- The characters of a text between two places. -/
def slice (span : Span) (cs : List Char) : List Char :=
  (cs.drop span.start.index).take (span.stop.index - span.start.index)

theorem slice_of_append (before text behind : List Char) :
    slice ⟨.after .origin before, .after (.after .origin before) text⟩ (before ++ text ++ behind) =
      text := by
  have hstart : (Position.after .origin before).index = before.length := by
    rw [Position.index_after]
    exact Nat.zero_add _
  have hstop : (Position.after (.after .origin before) text).index =
      before.length + text.length := by
    rw [Position.index_after, hstart]
  rw [slice, hstart, hstop, Nat.add_sub_cancel_left, List.append_assoc, List.drop_left,
    List.take_left]

/-- The place of a token covers its lexeme. -/
theorem lexeme_eq_slice {ps : List Piece} : ∀ t ∈ (Piece.located .origin ps).filterMap Piece.token?,
    t.lexeme.toList = slice t.span (Piece.texts ps) := by
  intro t ht
  obtain ⟨⟨q, piece⟩, hmem, htoken⟩ := List.mem_filterMap.mp ht
  obtain ⟨before, behind, htexts, rfl⟩ := Piece.text_of_located hmem
  obtain ⟨kind, hkind, rfl⟩ := Option.map_eq_some_iff.mp htoken
  rw [htexts, slice_of_append]
  exact String.toList_ofList

/-- A token is of the kind of a keyword exactly if its whole lexeme is that keyword. -/
theorem kind_eq_keyword_iff {cs : List Char} {ps : List Piece} : Piece.Splits cs ps →
    ∀ t ∈ (Piece.located .origin ps).filterMap Piece.token?, ∀ keyword : Kind,
      keyword.isKeyword = true → (t.kind = keyword ↔ (t.lexeme, keyword) ∈ keywords) := by
  intro h t ht keyword hkeyword
  obtain ⟨⟨q, piece⟩, hmem, htoken⟩ := List.mem_filterMap.mp ht
  obtain ⟨kind, hkind, rfl⟩ := Option.map_eq_some_iff.mp htoken
  obtain ⟨rest, hfits⟩ := Piece.fits_of_mem h piece (Piece.mem_of_located hmem)
  show kind = keyword ↔ (String.ofList piece.text, keyword) ∈ keywords
  -- only identifiers are looked up among the keywords; the others are spelt unlike them
  by_cases hcls : piece.cls = .identifier
  · rw [Piece.kind?, hcls] at hkind
    cases hkind
    exact Piece.ofIdentifier_eq_iff hkeyword
  · obtain ⟨hnot, hspelt⟩ := Piece.ne_keyword_of_fits hfits hcls hkind
    constructor
    · rintro rfl
      rw [hkeyword] at hnot
      cases hnot
    · intro hentry
      exact absurd String.toList_ofList (hspelt _ hentry)

/-- Only blanks and comments make no token. -/
theorem exists_token {ps : List Piece} : ∀ piece ∈ ps, Piece.Known piece →
    piece.cls = .blank ∨ piece.cls = .comment ∨
    ∃ t ∈ (Piece.located .origin ps).filterMap Piece.token?, t.lexeme.toList = piece.text := by
  intro piece hp hknown
  obtain ⟨q, hq⟩ := Piece.exists_located .origin hp
  have hof : ∀ kind, piece.kind? = some kind →
      ∃ t ∈ (Piece.located .origin ps).filterMap Piece.token?, t.lexeme.toList = piece.text := by
    intro kind hkind
    refine ⟨⟨kind, String.ofList piece.text, ⟨q, q.after piece.text⟩, piece.value?⟩, ?_,
      String.toList_ofList⟩
    refine List.mem_filterMap.mpr ⟨_, hq, ?_⟩
    rw [Piece.token?, hkind, Option.map_some]
  obtain ⟨cls, text⟩ := piece
  cases cls with
  | blank => exact Or.inl rfl
  | comment => exact Or.inr (Or.inl rfl)
  | number => exact Or.inr (Or.inr (hof .int rfl))
  | identifier => exact Or.inr (Or.inr (hof _ rfl))
  | sign kind => exact Or.inr (Or.inr (hof kind rfl))
  | unknown c => exact absurd rfl (hknown c)

/-! ## Lexing -/

/-- The tokens of a source whose division is made of fine pieces. -/
theorem ofSource_of_splits {source : String} {ps : List Piece} :
    Piece.Splits source.toList ps → (∀ piece ∈ ps, Piece.Fine piece) →
    ofSource source = .ok ((Piece.located .origin ps).filterMap Piece.token? ++
      [endAt (.after .origin source.toList)]) := by
  intro h hfine
  have hpieces : Piece.ofText source.toList = ps := (Piece.splits_iff.mp h).1
  rw [ofSource, ofChars, hpieces, ← Piece.texts_of_splits h]
  exact Piece.ofPieces_eq_ok_iff.mpr ⟨hfine, rfl⟩

/-- A source that has tokens is divided into fine pieces. -/
theorem splits_of_ofSource {source : String} {ts : List Token} : ofSource source = .ok ts →
    ∃ ps, Piece.Splits source.toList ps ∧ ∀ piece ∈ ps, Piece.Fine piece := by
  intro h
  obtain ⟨hfine, _⟩ := Piece.ofPieces_eq_ok_iff.mp h
  exact ⟨_, Piece.splits_ofText _ fun piece hp => (hfine piece hp).1, hfine⟩

/-- Lexing is the lexical grammar.  A source without an oversized run of digits has tokens exactly
    if it has a greedy division.  The division is unique and holds every character of the source,
    and the tokens are those of its pieces, each covering its lexeme, with the end marker just
    behind the last character; only blanks and comments are without one, and a keyword is a token
    that is spelt like it. -/
theorem ofSource_exact (source : String) :
    (∀ run, run <:+: source.toList → (∀ c ∈ run, isDigit c = true) → run.length ≤ digitLimit) →
    ((∃ ts, ofSource source = .ok ts) ↔ ∃ ps, Piece.Splits source.toList ps) ∧
    ∀ ps, Piece.Splits source.toList ps →
      (∀ qs, Piece.Splits source.toList qs → qs = ps) ∧
      (ps.map (·.text)).flatten = source.toList ∧
      ∃ ts stop, ofSource source = .ok (ts ++ [⟨.eof, "", ⟨stop, stop⟩, none⟩]) ∧
        stop = .after .origin source.toList ∧ stop.index = source.length ∧
        ts = (Piece.located .origin ps).filterMap Piece.token? ∧
        (∀ t ∈ ts, t.lexeme.toList = slice t.span source.toList) ∧
        (∀ t ∈ ts, ∀ keyword : Kind, keyword.isKeyword = true →
          (t.kind = keyword ↔ (t.lexeme, keyword) ∈ keywords)) ∧
        ∀ piece ∈ ps, piece.cls = .blank ∨ piece.cls = .comment ∨
          ∃ t ∈ ts, t.lexeme.toList = piece.text := by
  intro hshort
  constructor
  · constructor
    · rintro ⟨ts, h⟩
      obtain ⟨ps, hsplits, _⟩ := splits_of_ofSource h
      exact ⟨ps, hsplits⟩
    · rintro ⟨ps, h⟩
      exact ⟨_, ofSource_of_splits h (Piece.fine_of_splits hshort h)⟩
  · intro ps h
    refine ⟨?_, Piece.texts_of_splits h, _, _,
      ofSource_of_splits h (Piece.fine_of_splits hshort h), rfl, ?_, rfl, ?_,
      kind_eq_keyword_iff h, ?_⟩
    · intro qs hqs
      rw [← (Piece.splits_iff.mp hqs).1, (Piece.splits_iff.mp h).1]
    · rw [Position.index_after, String.length_toList]
      exact Nat.zero_add _
    · rw [← Piece.texts_of_splits h]
      exact lexeme_eq_slice
    · intro piece hp
      exact exists_token piece hp ((Piece.splits_iff.mp h).2 piece hp)

/-- A text where every character counts: a comment that its own opener does not close, a fraction
    that continues a name, a sign of two characters, and a digit of another script. -/
def crowded : String := "if/*/ */x½!=٣"

/-- Its greedy division. -/
def crowdedPieces : List Piece :=
  [⟨.identifier, ['i', 'f']⟩, ⟨.comment, ['/', '*', '/', ' ', '*', '/']⟩,
   ⟨.identifier, ['x', '½']⟩, ⟨.sign .neq, ['!', '=']⟩, ⟨.number, ['٣']⟩]

theorem crowded_tokens :
    (∀ run, run <:+: crowded.toList → (∀ c ∈ run, isDigit c = true) → run.length ≤ digitLimit) ∧
    Piece.Splits crowded.toList crowdedPieces ∧
    ∃ stop, stop.index = 13 ∧ ofSource crowded = .ok
      [⟨.kwIf, "if", ⟨⟨1, 1, 0⟩, ⟨1, 3, 2⟩⟩, none⟩, ⟨.name, "x½", ⟨⟨1, 9, 8⟩, ⟨1, 11, 10⟩⟩, none⟩,
       ⟨.neq, "!=", ⟨⟨1, 11, 10⟩, ⟨1, 13, 12⟩⟩, none⟩,
       ⟨.int, "٣", ⟨⟨1, 13, 12⟩, ⟨1, 14, 13⟩⟩, some 3⟩, ⟨.eof, "", ⟨stop, stop⟩, none⟩] := by
  have hshort : ∀ run, run <:+: crowded.toList → (∀ c ∈ run, isDigit c = true) →
      run.length ≤ digitLimit := by
    intro run hrun _
    exact Nat.le_trans hrun.length_le (by decide +kernel)
  have hsplits : Piece.Splits crowded.toList crowdedPieces := by
    refine Piece.splits_iff.mpr ⟨by decide +kernel, ?_⟩
    intro piece hp c
    simp only [crowdedPieces, List.mem_cons, List.not_mem_nil, or_false] at hp
    rcases hp with rfl | rfl | rfl | rfl | rfl <;> exact nofun
  obtain ⟨_, _, ts, stop, hok, _, hstop, rfl, _⟩ := (ofSource_exact crowded hshort).2 _ hsplits
  have htokens : (Piece.located .origin crowdedPieces).filterMap Piece.token? =
      [⟨.kwIf, "if", ⟨⟨1, 1, 0⟩, ⟨1, 3, 2⟩⟩, none⟩, ⟨.name, "x½", ⟨⟨1, 9, 8⟩, ⟨1, 11, 10⟩⟩, none⟩,
       ⟨.neq, "!=", ⟨⟨1, 11, 10⟩, ⟨1, 13, 12⟩⟩, none⟩,
       ⟨.int, "٣", ⟨⟨1, 13, 12⟩, ⟨1, 14, 13⟩⟩, some 3⟩] := by
    decide +kernel
  rw [htokens] at hok
  exact ⟨hshort, hsplits, stop, hstop, hok⟩

end MiniLang.Token
