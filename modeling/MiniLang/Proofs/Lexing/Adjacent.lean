/-
  Tokens written one behind the other.

  1. **Making** — `piece.Makes t`: the token `t` is read from this piece.  Whatever lexing returns,
     the end marker apart, is made by a piece (`exists_piece`).
  2. **Going on** — a piece that makes a token fits wherever the next character does not continue
     it (`fits_iff_head`), and which characters do so is a question of the kind of the token that
     begins with them (`goesOn_iff`): the two kinds run together (`Kind.clashes`).
  3. **Separators** — tokens that do not run together may touch; between any two tokens may stand a
     gap that begins with a blank (`Spaced`).  Such a text spells its tokens.
  4. **Touching** — a text that is lexed as two tokens, and consists of their lexemes, is divided
     into their two pieces; so two tokens that run together are not read from it.
-/
import MiniLang.Proofs.Lexing.Spelling

namespace MiniLang

open MiniLang.Text

/-! ## Classes of characters -/

namespace Text

theorem numeralRanges_sorted : Ranges.SortedAbove 0 numeralRanges := by decide +kernel

/-- No blank continues a name. -/
theorem not_nameRest_of_blank {c : Char} (hc : isBlank c = true) : isNameRest c = false := by
  have hstart : isNameStart c = false := by
    refine Bool.eq_false_iff.mpr fun h => ?_
    rw [not_blank_of_nameStart h] at hc
    cases hc
  have hnumeral : numeralRanges.holds c.toNat = false := by
    refine Bool.eq_false_iff.mpr fun h => ?_
    have hapart : Ranges.apart 1000 blankRanges numeralRanges = true := by decide +kernel
    exact Ranges.not_in_both blankRanges_sorted numeralRanges_sorted hapart
      (Ranges.in_of_holds blankRanges_sorted hc) (Ranges.in_of_holds numeralRanges_sorted h)
  rw [isNameRest, hstart, not_digit_of_blank hc, hnumeral]
  rfl

end Text

namespace Token

/-! ## Making a token -/

/-- Lexing some source makes this token; it is not the end marker. -/
def Lexed (t : Token) : Prop :=
  t.kind ≠ .eof ∧ ∃ source tokens, ofSource source = .ok tokens ∧ t ∈ tokens

/-- The token is read from this piece, wherever it fits. -/
structure Piece.Makes (piece : Piece) (t : Token) : Prop where
  fits : ∃ rest, Fits piece rest
  fine : piece.Fine
  word : piece.word? = some t.bare

section

variable {p q : Piece} {a b t : Token}

theorem Piece.word?_of_token? {piece : Piece} {at_ : Position}
    (h : token? (at_, piece) = some t) : piece.word? = some t.bare := by
  obtain ⟨kind, hkind, rfl⟩ := Option.map_eq_some_iff.mp h
  rw [word?, hkind]
  rfl

/-- What lexing returns is made by pieces. -/
theorem exists_piece (h : Lexed t) : ∃ piece : Piece, piece.Makes t := by
  obtain ⟨hkind, source, tokens, hsource, ht⟩ := h
  obtain ⟨ps, hsplits, hfine⟩ := splits_of_ofSource hsource
  rw [ofSource_of_splits hsplits hfine] at hsource
  cases hsource
  rcases List.mem_append.mp ht with ht | ht
  · obtain ⟨⟨place, piece⟩, hmem, htoken⟩ := List.mem_filterMap.mp ht
    have hpiece := Piece.mem_of_located hmem
    exact ⟨piece, Piece.fits_of_mem hsplits piece hpiece, hfine piece hpiece,
      Piece.word?_of_token? htoken⟩
  · rw [List.mem_singleton.mp ht] at hkind
    exact absurd rfl hkind

theorem Piece.Makes.kind (h : p.Makes t) : p.kind? = some t.kind := by
  obtain ⟨kind, hkind, hword⟩ := Option.map_eq_some_iff.mp h.word
  rw [hkind, show kind = t.kind from congrArg Token.kind hword]

theorem Piece.Makes.text (h : p.Makes t) : p.text = t.lexeme.toList := by
  obtain ⟨kind, -, hword⟩ := Option.map_eq_some_iff.mp h.word
  have hlexeme : String.ofList p.text = t.lexeme := congrArg Token.lexeme hword
  rw [← hlexeme, String.toList_ofList]

end

/-! ## Going on -/

/-- Is this the kind of an identifier: a name or a keyword? -/
def Kind.isWord (k : Kind) : Bool := k == .name || k.isKeyword

/-- Do two tokens of these kinds run together if nothing stands between them? -/
def Kind.clashes (k l : Kind) : Bool :=
  k.isWord && (l.isWord || l == .int)
    || k == .int && l == .int
    || [assign, lt, gt].contains k && [assign, eq].contains l
    || k == .slash && [slash, star].contains l

theorem isWord_ofIdentifier (s : String) : (Kind.ofIdentifier s).isWord = true := by
  have hall : ∀ entry ∈ keywords, entry.2.isWord = true := by decide
  rcases ofIdentifier_cases s with hname | hkeyword
  · rw [hname]
    rfl
  · exact hall _ hkeyword

namespace Piece

/-- The character would be part of the piece, or of a longer one, if it stood right behind it. -/
inductive GoesOn : Piece → Char → Prop
  | number {ds d} : isDigit d = true → GoesOn ⟨.number, ds⟩ d
  | identifier {cs d} : isNameRest d = true → GoesOn ⟨.identifier, cs⟩ d
  | pair {kind kind' c d} : Kind.ofPair? c d = some kind' → GoesOn ⟨.sign kind, [c]⟩ d
  | comment {kind d} : d = '/' ∨ d = '*' → GoesOn ⟨.sign kind, ['/']⟩ d

variable {p q : Piece} {a b : Token} {rest : List Char}

/-- Only the next character decides whether a piece that makes a token reaches further. -/
theorem fits_iff_head (h : p.Makes a) : Fits p rest ↔ ∀ d ∈ rest.head?, ¬ GoesOn p d := by
  have hkind := h.kind
  obtain ⟨behind, hfits⟩ := h.fits
  cases hfits with
  | blank => cases hkind
  | lineComment => cases hkind
  | blockComment => cases hkind
  | openComment => cases hkind
  | number hc hmore =>
    constructor
    · intro hfits d hd hgoes
      cases hfits with | number _ _ hrest =>
      cases hgoes with | number hdigit =>
      exact absurd hdigit (Bool.eq_false_iff.mp (hrest d hd))
    · intro hrest
      exact .number hc hmore fun d hd => Bool.eq_false_iff.mpr fun h => hrest d hd (.number h)
  | identifier hc hmore =>
    constructor
    · intro hfits d hd hgoes
      cases hfits with | identifier _ _ hrest =>
      cases hgoes with | identifier hname =>
      exact absurd hname (Bool.eq_false_iff.mp (hrest d hd))
    · intro hrest
      exact .identifier hc hmore fun d hd =>
        Bool.eq_false_iff.mpr fun h => hrest d hd (.identifier h)
  | pair hpair =>
    refine ⟨?_, fun _ => .pair hpair⟩
    rintro - d - ⟨⟩
  | sign hsign =>
    constructor
    · intro hfits d hd hgoes
      cases hfits with | sign _ hrest =>
      obtain ⟨hpair, hcomment⟩ := hrest d hd
      cases hgoes with
      | pair hpair' =>
        rw [hpair] at hpair'
        cases hpair'
      | comment hd => exact hcomment ⟨rfl, hd⟩
    · intro hrest
      refine .sign hsign fun d hd => ⟨Option.eq_none_iff_forall_ne_some.mpr ?_, ?_⟩
      · exact fun kind hpair => hrest d hd (.pair hpair)
      · rintro ⟨rfl, hd'⟩
        exact hrest d hd (.comment hd')

/-- What the first character of a token says of its kind. -/
def Opens (d : Char) (k : Kind) : Prop :=
  (isDigit d = true ↔ k = .int) ∧ (isNameRest d = true ↔ k.isWord = true ∨ k = .int) ∧
    (d = '=' ↔ k = .assign ∨ k = .eq) ∧ (d = '/' ↔ k = .slash) ∧ (d = '*' ↔ k = .star)

instance (d : Char) (k : Kind) : Decidable (Opens d k) :=
  inferInstanceAs (Decidable (_ ∧ _ ∧ _ ∧ _ ∧ _))

theorem opens_of_makes (h : q.Makes b) : ∃ d ds, q.text = d :: ds ∧ Opens d b.kind := by
  have hkind := h.kind
  obtain ⟨behind, hfits⟩ := h.fits
  cases hfits with
  | blank => cases hkind
  | lineComment => cases hkind
  | blockComment => cases hkind
  | openComment => cases hkind
  | @number c more _ hc =>
    refine ⟨c, more, rfl, ?_⟩
    rw [← Option.some.inj hkind]
    have hne : ∀ d, isDigit d = false → c ≠ d := by
      rintro d hd rfl
      rw [hc] at hd
      cases hd
    simp [Opens, hc, isNameRest_of_isDigit hc, hne '=' (by decide), hne '/' (by decide),
      hne '*' (by decide)]
  | @identifier c more _ hc =>
    refine ⟨c, more, rfl, ?_⟩
    have hword := isWord_ofIdentifier (String.ofList (c :: more))
    rw [Option.some.inj hkind] at hword
    have hne : ∀ d, isNameStart d = false → c ≠ d := by
      rintro d hd rfl
      rw [hc] at hd
      cases hd
    have hkinds : ∀ k, k.isWord = false → b.kind ≠ k := by
      rintro k hk hb
      rw [hb, hk] at hword
      cases hword
    simp [Opens, not_digit_of_nameStart hc, isNameRest_of_isNameStart hc, hword,
      hne '=' (by decide), hne '/' (by decide), hne '*' (by decide), hkinds .int rfl,
      hkinds .assign rfl, hkinds .eq rfl, hkinds .slash rfl, hkinds .star rfl]
  | @pair c d kind _ hpair =>
    have hall : ∀ entry ∈ pairs, Opens entry.1.1 entry.2 := by decide +kernel
    exact ⟨c, [d], rfl, Option.some.inj hkind ▸ hall _ (mem_of_lookup hpair)⟩
  | @sign c kind _ hsign =>
    have hall : ∀ entry ∈ signs, Opens entry.1 entry.2 := by decide +kernel
    exact ⟨c, [], rfl, Option.some.inj hkind ▸ hall _ (mem_of_lookup hsign)⟩

/-- Signs of two characters end with an equals sign. -/
theorem exists_pair_iff {c d : Char} :
    (∃ kind, Kind.ofPair? c d = some kind) ↔ c ∈ ['=', '!', '<', '>'] ∧ d = '=' := by
  constructor
  · rintro ⟨kind, hpair⟩
    have hall : ∀ entry ∈ pairs, entry.1.1 ∈ ['=', '!', '<', '>'] ∧ entry.1.2 = '=' := by decide
    exact hall _ (mem_of_lookup hpair)
  · rintro ⟨hc, rfl⟩
    have hall : ['=', '!', '<', '>'].all (fun c => (Kind.ofPair? c '=').isSome) = true := by decide
    exact Option.isSome_iff_exists.mp (List.all_eq_true.mp hall c hc)

/-- A piece goes on with what begins another token exactly if the two kinds run together. -/
theorem goesOn_iff {d : Char} {k : Kind} (h : p.Makes a) (hk : Opens d k) :
    GoesOn p d ↔ a.kind.clashes k = true := by
  obtain ⟨hdigit, hname, hequals, hslash, hstar⟩ := hk
  have hkind := h.kind
  obtain ⟨behind, hfits⟩ := h.fits
  cases hfits with
  | blank => cases hkind
  | lineComment => cases hkind
  | blockComment => cases hkind
  | openComment => cases hkind
  | @number c more =>
    have hclash : ∀ l, Kind.clashes .int l = true ↔ l = .int := by
      intro l
      cases l <;> decide
    have hgoes : GoesOn ⟨.number, c :: more⟩ d ↔ isDigit d = true :=
      ⟨fun h => by cases h with | number hd => exact hd, .number⟩
    rw [← Option.some.inj hkind, hclash, hgoes, hdigit]
  | @identifier c more =>
    have hclash : ∀ k ∈ Kind.all, ∀ l ∈ Kind.all, k.isWord = true →
        (k.clashes l = true ↔ l.isWord = true ∨ l = .int) := by decide +kernel
    have hgoes : GoesOn ⟨.identifier, c :: more⟩ d ↔ isNameRest d = true :=
      ⟨fun h => by cases h with | identifier hd => exact hd, .identifier⟩
    rw [← Option.some.inj hkind, hgoes, hname,
      hclash _ (Kind.mem_all _) _ (Kind.mem_all _) (isWord_ofIdentifier _)]
  | pair hpair =>
    have hclash : ∀ entry ∈ pairs, ∀ l ∈ Kind.all, entry.2.clashes l = false := by decide +kernel
    rw [← Option.some.inj hkind, hclash _ (mem_of_lookup hpair) _ (Kind.mem_all _)]
    exact ⟨nofun, nofun⟩
  | @sign c kind _ hsign =>
    have hclash : ∀ entry ∈ signs, ∀ l ∈ Kind.all, (entry.2.clashes l = true ↔
        entry.1 ∈ ['=', '!', '<', '>'] ∧ (l = .assign ∨ l = .eq) ∨
          entry.1 = '/' ∧ (l = .slash ∨ l = .star)) := by decide +kernel
    have hgoes : GoesOn ⟨.sign kind, [c]⟩ d ↔
        (∃ kind', Kind.ofPair? c d = some kind') ∨ c = '/' ∧ (d = '/' ∨ d = '*') := by
      constructor
      · rintro (_ | _ | hpair | hd)
        · exact .inl ⟨_, hpair⟩
        · exact .inr ⟨rfl, hd⟩
      · rintro (⟨kind', hpair⟩ | ⟨rfl, hd⟩)
        · exact .pair hpair
        · exact .comment hd
    rw [← Option.some.inj hkind, hgoes, exists_pair_iff, hequals, hslash, hstar,
      hclash _ (mem_of_lookup hsign) _ (Kind.mem_all _)]

/-- A piece that makes a token fits before another one unless they run together. -/
theorem fits_iff_not_clashes (hp : p.Makes a) (hq : q.Makes b) :
    Fits p (q.text ++ rest) ↔ a.kind.clashes b.kind = false := by
  obtain ⟨d, ds, htext, hopens⟩ := opens_of_makes hq
  rw [fits_iff_head hp, htext, List.cons_append, List.head?_cons, ← Bool.not_eq_true,
    ← goesOn_iff hp hopens]
  exact ⟨fun h => h d rfl, fun h d' hd' => Option.some.inj hd' ▸ h⟩

/-- No piece that makes a token goes on with a blank. -/
theorem not_goesOn_blank {c : Char} (hp : p.Makes a) (hc : isBlank c = true) : ¬ GoesOn p c := by
  have hne : ∀ d, isBlank d = false → c ≠ d := by
    rintro d hd rfl
    rw [hc] at hd
    cases hd
  intro hgoes
  cases hgoes with
  | number hdigit => exact absurd hdigit (Bool.eq_false_iff.mp (not_digit_of_blank hc))
  | identifier hname => exact absurd hname (Bool.eq_false_iff.mp (not_nameRest_of_blank hc))
  | pair hpair => exact hne '=' (by decide) (exists_pair_iff.mp ⟨_, hpair⟩).2
  | comment hd =>
    rcases hd with hd | hd
    · exact hne '/' (by decide) hd
    · exact hne '*' (by decide) hd

end Piece

/-! ## Separators -/

/-- What may stand between two tokens: nothing, unless they run together, or a gap that begins with
    a blank. -/
inductive Separator (a b : Token) : List Char → Prop
  | none : a.kind.clashes b.kind = false → Separator a b []
  | gap {c g} : isBlank c = true → Gap g → Separator a b (c :: g)

/-- The lexemes of some tokens, in order, with a separator between any two neighbours. -/
inductive Spaced : List Token → List Char → Prop
  | nil : Spaced [] []
  | one {t} : Spaced [t] t.lexeme.toList
  | cons {a b ts sep cs} : Separator a b sep → Spaced (b :: ts) cs →
      Spaced (a :: b :: ts) (a.lexeme.toList ++ (sep ++ cs))

theorem Spaced.lexeme_append {t : Token} {ts : List Token} {cs : List Char}
    (h : Spaced (t :: ts) cs) : ∃ more, cs = t.lexeme.toList ++ more := by
  cases h with
  | one => exact ⟨[], (List.append_nil _).symm⟩
  | cons => exact ⟨_, rfl⟩

/-- A token spells itself before what its piece does not go on with. -/
theorem Piece.Makes.spells {piece : Piece} {t : Token} {rest : List Char} (h : piece.Makes t)
    (hrest : Piece.Fits piece rest) : Spells t.lexeme.toList [t.bare] rest := by
  have hspells := Spells.of_fits hrest h.fine
  rwa [h.word, h.text] at hspells

/-- A separator, with the next token behind it, keeps the token before it from going on. -/
theorem Separator.fits {a b : Token} {p : Piece} {sep cs : List Char} (h : Separator a b sep)
    (hp : p.Makes a) (hb : Lexed b) (hcs : ∃ more, cs = b.lexeme.toList ++ more) :
    Piece.Fits p (sep ++ cs) := by
  cases h with
  | none hclash =>
    obtain ⟨q, hq⟩ := exists_piece hb
    obtain ⟨more, rfl⟩ := hcs
    rw [List.nil_append, ← hq.text]
    exact (Piece.fits_iff_not_clashes hp hq).mpr hclash
  | gap hc =>
    refine (Piece.fits_iff_head hp).mpr ?_
    rintro d ⟨⟩
    exact Piece.not_goesOn_blank hp hc

theorem Separator.spells {a b : Token} {sep : List Char} (h : Separator a b sep)
    (rest : List Char) : Spells sep [] rest := by
  cases h with
  | none => exact .nil
  | gap hc hg => exact (Gap.blank hc hg).spells rest

/-- By induction on the tokens: what stands behind the first one is a separator and the others. -/
theorem Spaced.spells {ts : List Token} {cs : List Char} (h : Spaced ts cs)
    (hts : ∀ t ∈ ts, Lexed t) : Spells cs (ts.map bare) [] := by
  induction h with
  | nil => exact .nil
  | @one t =>
    obtain ⟨p, hp⟩ := exists_piece (hts t (List.mem_singleton_self t))
    exact hp.spells ((Piece.fits_iff_head hp).mpr nofun)
  | @cons a b ts sep cs hsep hspaced ih =>
    obtain ⟨ha, hrest⟩ := List.forall_mem_cons.mp hts
    obtain ⟨p, hp⟩ := exists_piece ha
    have hfits := hsep.fits hp (hrest b List.mem_cons_self) hspaced.lexeme_append
    have hbehind : Spells (sep ++ cs) ((b :: ts).map bare) [] := (hsep.spells _).append (ih hrest)
    rw [← List.append_nil (sep ++ cs)] at hfits
    exact (hp.spells hfits).append hbehind

/-! ## Touching -/

namespace Piece

theorem bare_word? (piece : Piece) : piece.word?.map Token.bare = piece.word? := by
  rw [word?, Option.map_map]
  rfl

theorem text_ne_nil_of_fits {piece : Piece} {rest : List Char} (h : Fits piece rest) :
    piece.text ≠ [] := by
  cases h <;> exact List.cons_ne_nil _ _

/-- Pieces without any text are none at all. -/
theorem eq_nil_of_texts {ps : List Piece} (hps : ∀ piece ∈ ps, piece.text ≠ [])
    (h : (texts ps).length = 0) : ps = [] := by
  cases ps with
  | nil => rfl
  | cons piece ps =>
    have hpos := List.length_pos_iff.mpr (hps piece List.mem_cons_self)
    rw [texts_cons, List.length_append] at h
    omega

end Piece

/-- The pieces of a source that is lexed as some tokens make these. -/
theorem words_of_ofSource {ps : List Piece} {source : String} {ts us : List Token} {stop : Position}
    (hsplits : Piece.Splits source.toList ps) (hfine : ∀ piece ∈ ps, Piece.Fine piece)
    (hok : ofSource source = .ok (us ++ [endAt stop])) (halike : Alike ts us) :
    ps.filterMap Piece.word? = ts.map bare := by
  rw [ofSource_of_splits hsplits hfine] at hok
  obtain ⟨rfl, -⟩ := List.append_inj' (Except.ok.inj hok) rfl
  have hwords : Alike (ps.filterMap Piece.word?) _ := Piece.alike_words ps .origin
  rw [Alike, List.map_filterMap, funext Piece.bare_word?] at hwords
  exact hwords.trans halike.symm

/-- A source that is lexed as two tokens, and consists of their lexemes, is divided into the pieces
    that make them: no piece is left for anything else. -/
theorem fits_of_two {a b : Token} {us : List Token} {stop : Position}
    (hok : ofSource (a.lexeme ++ b.lexeme) = .ok (us ++ [endAt stop])) (halike : Alike [a, b] us) :
    ∃ p q : Piece, p.Makes a ∧ q.Makes b ∧ Piece.Fits p q.text := by
  obtain ⟨ps, hsplits, hfine⟩ := splits_of_ofSource hok
  have hwords := words_of_ofSource hsplits hfine hok halike
  have hfits := Piece.fits_of_mem hsplits
  have htexts := Piece.texts_of_splits hsplits
  obtain ⟨before, p, behind, rfl, -, hp, hbehind⟩ := List.filterMap_eq_cons_iff.mp hwords
  obtain ⟨between, q, after, rfl, -, hq, -⟩ := List.filterMap_eq_cons_iff.mp hbehind
  simp only [List.forall_mem_append, List.forall_mem_cons] at hfine hfits
  obtain ⟨hbefore, hpfits, hbetween, hqfits, hafter⟩ := hfits
  have hpmakes : p.Makes a := ⟨hpfits, hfine.2.1, hp⟩
  have hqmakes : q.Makes b := ⟨hqfits, hfine.2.2.2.1, hq⟩
  have hne : ∀ {qs : List Piece}, (∀ piece ∈ qs, ∃ rest, Piece.Fits piece rest) →
      ∀ piece ∈ qs, piece.text ≠ [] :=
    fun h piece hmem => (h piece hmem).elim fun _ => Piece.text_ne_nil_of_fits
  -- the lexemes of the two tokens take all the room
  have hroom := congrArg List.length htexts
  simp only [Piece.texts_append, Piece.texts_cons, String.toList_append, hpmakes.text, hqmakes.text,
    List.length_append] at hroom
  obtain rfl := Piece.eq_nil_of_texts (hne hbefore) (by omega)
  obtain rfl := Piece.eq_nil_of_texts (hne hbetween) (by omega)
  obtain rfl := Piece.eq_nil_of_texts (hne hafter) (by omega)
  refine ⟨p, q, hpmakes, hqmakes, ?_⟩
  generalize (a.lexeme ++ b.lexeme).toList = cs at hsplits
  cases hsplits with | cons hpq hrest =>
  cases hrest with | cons _ hnone =>
  cases hnone with | nil =>
  rwa [List.append_nil] at hpq

/-! ## Lexing back -/

/-- **Tokens with separators lex back.**  Take any tokens that lexing can make, and write their
    lexemes one behind the other, with a gap that begins with a blank between any two neighbours,
    or with nothing where these do not run together.  The text is lexed as these tokens, with their
    kinds, lexemes and values, and the end marker.  And two tokens that run together are not read
    from the text in which they touch. -/
theorem spaced_tokens_lex_back :
    (∀ ts cs, (∀ t ∈ ts, Lexed t) → Spaced ts cs →
      ∃ us stop, ofSource (String.ofList cs) = .ok (us ++ [endAt stop]) ∧ Alike ts us) ∧
    ∀ a b, Lexed a → Lexed b → a.kind.clashes b.kind = true →
      ∀ us stop, ofSource (a.lexeme ++ b.lexeme) = .ok (us ++ [endAt stop]) →
        ¬ Alike [a, b] us := by
  constructor
  · intro ts cs hts hspaced
    have hspells := hspaced.spells hts
    rw [← String.toList_ofList (l := cs)] at hspells
    obtain ⟨us, stop, hok, halike⟩ := ofSource_of_spells hspells
    refine ⟨us, stop, hok, ?_⟩
    have hbare : Alike (ts.map bare) ts := by
      rw [Alike, List.map_map]
      rfl
    exact hbare.symm.trans halike
  · intro a b _ _ hclash us stop hok halike
    obtain ⟨p, q, hp, hq, hfits⟩ := fits_of_two hok halike
    rw [← List.append_nil q.text, Piece.fits_iff_not_clashes hp hq, hclash] at hfits
    cases hfits

/-- Tokens of every sort, far from each other. -/
def loose : String := "1 x2 == = / * else < =="

/-- What they are. -/
def looseTokens : List Token :=
  [⟨.int, "1", ⟨⟨1, 1, 0⟩, ⟨1, 2, 1⟩⟩, some 1⟩, ⟨.name, "x2", ⟨⟨1, 3, 2⟩, ⟨1, 5, 4⟩⟩, none⟩,
   ⟨.eq, "==", ⟨⟨1, 6, 5⟩, ⟨1, 8, 7⟩⟩, none⟩, ⟨.assign, "=", ⟨⟨1, 9, 8⟩, ⟨1, 10, 9⟩⟩, none⟩,
   ⟨.slash, "/", ⟨⟨1, 11, 10⟩, ⟨1, 12, 11⟩⟩, none⟩, ⟨.star, "*", ⟨⟨1, 13, 12⟩, ⟨1, 14, 13⟩⟩, none⟩,
   ⟨.kwElse, "else", ⟨⟨1, 15, 14⟩, ⟨1, 19, 18⟩⟩, none⟩,
   ⟨.lt, "<", ⟨⟨1, 20, 19⟩, ⟨1, 21, 20⟩⟩, none⟩, ⟨.eq, "==", ⟨⟨1, 22, 21⟩, ⟨1, 24, 23⟩⟩, none⟩]

/-- The same tokens as close to each other as they may stand, with comments where two of them would
    run together. -/
def cramped : String := "1x2===/ /*/ */*else<\t// ==\n=="

theorem cramped_lex_back :
    (∀ t ∈ looseTokens, Lexed t) ∧ Spaced looseTokens cramped.toList ∧
    (∃ us stop, ofSource cramped = .ok (us ++ [endAt stop]) ∧ Alike looseTokens us) ∧
    ∃ a ∈ looseTokens, ∃ b ∈ looseTokens, a.lexeme ++ b.lexeme = "<==" ∧
      a.kind.clashes b.kind = true ∧
      ∀ us stop, ofSource "<==" = .ok (us ++ [endAt stop]) → ¬ Alike [a, b] us := by
  have hloose : (ofSource loose).toOption = some (looseTokens ++ [endAt ⟨1, 24, 23⟩]) := by
    decide +kernel
  have hkinds : ∀ t ∈ looseTokens, t.kind ≠ .eof := by decide
  have hlexed : ∀ t ∈ looseTokens, Lexed t := fun t ht =>
    ⟨hkinds t ht, loose, _, eq_ok_of_toOption hloose, List.mem_append_left _ ht⟩
  have hblock : Gap ['/', '*', '/', ' ', '*', '/'] :=
    @Gap.blockComment ['/', ' '] _ (by decide) .nil
  have hline : Gap ['/', '/', ' ', '=', '=', '\n'] :=
    @Gap.lineComment [' ', '=', '='] _ (by decide) .nil
  have hspaced : ∃ cs, Spaced looseTokens cs ∧ cs = cramped.toList :=
    ⟨_, .cons (.none rfl) <| .cons (.none rfl) <| .cons (.none rfl) <| .cons (.none rfl) <|
      .cons (.gap (c := ' ') (by decide) hblock) <| .cons (.none rfl) <| .cons (.none rfl) <|
      .cons (.gap (c := '\t') (by decide) hline) .one, by decide +kernel⟩
  obtain ⟨cs, hspaced, rfl⟩ := hspaced
  have hback := spaced_tokens_lex_back.1 looseTokens _ hlexed hspaced
  rw [String.ofList_toList] at hback
  have hless : looseTokens[7] ∈ looseTokens := List.getElem_mem _
  have hequal : looseTokens[8] ∈ looseTokens := List.getElem_mem _
  exact ⟨hlexed, hspaced, hback, _, hless, _, hequal, rfl, rfl,
    spaced_tokens_lex_back.2 _ _ (hlexed _ hless) (hlexed _ hequal) rfl⟩

end Token

end MiniLang
