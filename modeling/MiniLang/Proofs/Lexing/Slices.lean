/-
  A slice of a source holds its tokens.

  A piece reaches as far as it can before what follows it.  If less of that follows, it can reach no
  further: so the pieces between two places of a source are the pieces of the text between them.

  1. **Less behind** — a piece that fits, and tokens that are spelt, before some text fit and are
     spelt before any beginning of it.
  2. **Places** — where a token begins or ends, the pieces are divided, and so is their text.
  3. **Slices** — the text from where a token begins to where one ends is lexed as the tokens from
     the one to the other (`exists_slice`), and the text from where the first token begins to the end
     of the source as all tokens (`exists_slice_to_end`).
-/
import MiniLang.Proofs.Lexing.Spelling

namespace MiniLang.Token

/-! ## Less behind -/

theorem Piece.Fits.shorten {piece : Piece} {rest behind : List Char}
    (h : Fits piece (rest ++ behind)) : Fits piece rest := by
  -- what stands in front of the rest stood in front of the whole
  have hhead : ∀ d ∈ rest.head?, d ∈ (rest ++ behind).head? := by
    intro d hd
    rw [List.head?_append, Option.mem_def.mp hd]
    rfl
  generalize htext : rest ++ behind = text at h hhead
  cases h with
  | blank hc => exact .blank hc
  | lineComment hbody hrest => exact .lineComment hbody fun d hd => hrest d (hhead d hd)
  | blockComment hbody => exact .blockComment hbody
  | openComment hbody =>
    obtain ⟨rfl, -⟩ := List.append_eq_nil_iff.mp htext
    exact .openComment hbody
  | number hc hmore hrest => exact .number hc hmore fun d hd => hrest d (hhead d hd)
  | identifier hc hmore hrest => exact .identifier hc hmore fun d hd => hrest d (hhead d hd)
  | pair hpair => exact .pair hpair
  | sign hsign hrest => exact .sign hsign fun d hd => hrest d (hhead d hd)

theorem Spells.shorten {cs rest behind : List Char} {ts : List Token}
    (h : Spells cs ts (rest ++ behind)) : Spells cs ts rest := by
  generalize htext : rest ++ behind = text at h
  induction h with
  | nil => exact .nil
  | cons hfits hfine _ ih =>
    subst htext
    rw [← List.append_assoc] at hfits
    exact .cons hfits.shorten hfine (ih rfl)

namespace Piece

/-- The pieces at the front of a division spell their words. -/
theorem Splits.spells {ps qs : List Piece} {cs : List Char} (h : Splits cs (ps ++ qs))
    (hfine : ∀ piece ∈ ps, Fine piece) :
    cs = texts ps ++ texts qs ∧ Spells (texts ps) (ps.filterMap word?) (texts qs) ∧
      Splits (texts qs) qs := by
  induction ps generalizing cs with
  | nil =>
    have htexts := texts_of_splits h
    exact ⟨htexts.symm, .nil, by rwa [← htexts] at h⟩
  | cons piece ps ih =>
    obtain ⟨hpiece, hfine⟩ := List.forall_mem_cons.mp hfine
    cases h with
    | cons hfits hsplits =>
      obtain ⟨rfl, hspells, hrest⟩ := ih hsplits hfine
      refine ⟨by rw [texts_cons, List.append_assoc], ?_, hrest⟩
      have hcons := Spells.cons hfits hpiece hspells
      rw [texts_cons, List.filterMap_cons]
      cases hword : piece.word? with
      | none => rwa [hword] at hcons
      | some t => rwa [hword] at hcons

/-! ## Places -/

section

variable {ps : List Piece} {p : Position} {us vs : List Token} {t : Token}

/-- The pieces are divided where a token begins. -/
theorem exists_before (h : (located p ps).filterMap token? = us ++ t :: vs) :
    ∃ qs rs, ps = qs ++ rs ∧ t.span.start = p.after (texts qs) ∧
      (located (p.after (texts qs)) rs).filterMap token? = t :: vs := by
  induction ps generalizing p us with
  | nil => exact absurd h (by simp [located])
  | cons piece ps ih =>
    have hlater : ∀ {us}, (located (p.after piece.text) ps).filterMap token? = us ++ t :: vs →
        ∃ qs rs, piece :: ps = qs ++ rs ∧ t.span.start = p.after (texts qs) ∧
          (located (p.after (texts qs)) rs).filterMap token? = t :: vs := by
      intro us h
      obtain ⟨qs, rs, rfl, hstart, hrest⟩ := ih h
      rw [← Position.after_append, ← texts_cons] at hstart hrest
      exact ⟨piece :: qs, rs, rfl, hstart, hrest⟩
    cases hpiece : token? (p, piece) with
    | none =>
      rw [located, List.filterMap_cons_none hpiece] at h
      exact hlater h
    | some u =>
      rw [located, List.filterMap_cons_some hpiece] at h
      cases us with
      | nil =>
        obtain ⟨rfl, -⟩ := List.cons.inj h
        refine ⟨[], piece :: ps, rfl, by rw [span_of_token? hpiece]; rfl, ?_⟩
        show (located p (piece :: ps)).filterMap token? = _
        rwa [located, List.filterMap_cons_some hpiece]
      | cons v us => exact hlater (List.cons.inj h).2

/-- The pieces are divided where a token ends. -/
theorem exists_behind (h : (located p ps).filterMap token? = us ++ t :: vs) :
    ∃ qs rs, ps = qs ++ rs ∧ t.span.stop = p.after (texts qs) ∧
      (located p qs).filterMap token? = us ++ [t] := by
  induction ps generalizing p us with
  | nil => exact absurd h (by simp [located])
  | cons piece ps ih =>
    cases hpiece : token? (p, piece) with
    | none =>
      rw [located, List.filterMap_cons_none hpiece] at h
      obtain ⟨qs, rs, rfl, hstop, hqs⟩ := ih h
      refine ⟨piece :: qs, rs, rfl, by rwa [texts_cons, Position.after_append], ?_⟩
      rwa [located, List.filterMap_cons_none hpiece]
    | some u =>
      rw [located, List.filterMap_cons_some hpiece] at h
      cases us with
      | nil =>
        obtain ⟨rfl, -⟩ := List.cons.inj h
        refine ⟨[piece], ps, rfl, ?_, ?_⟩
        · rw [span_of_token? hpiece, texts_cons]
          exact congrArg p.after (List.append_nil _).symm
        · rw [located, List.filterMap_cons_some hpiece]
          rfl
      | cons v us =>
        obtain ⟨rfl, hlater⟩ := List.cons.inj h
        obtain ⟨qs, rs, rfl, hstop, hqs⟩ := ih hlater
        refine ⟨piece :: qs, rs, rfl, by rwa [texts_cons, Position.after_append], ?_⟩
        rw [located, List.filterMap_cons_some hpiece, hqs]
        rfl

end

end Piece

/-! ## Slices -/

variable {source : String} {tokens : List Token}

/-- Some pieces of a division are the division of their own text. -/
theorem ofSource_of_pieces {as bs cs : List Piece} (h : Piece.Splits source.toList (as ++ bs ++ cs))
    (hfine : ∀ piece ∈ as ++ bs ++ cs, piece.Fine) :
    source.toList = Piece.texts as ++ Piece.texts bs ++ Piece.texts cs ∧
      ∃ us stop, ofSource (String.ofList (Piece.texts bs)) = .ok (us ++ [endAt stop]) ∧
        Alike ((Piece.located (.after .origin (Piece.texts as)) bs).filterMap Piece.token?) us := by
  simp only [List.forall_mem_append] at hfine
  rw [List.append_assoc] at h
  obtain ⟨hsource, -, hrest⟩ := h.spells hfine.1.1
  obtain ⟨-, hspells, -⟩ := hrest.spells hfine.1.2
  rw [Piece.texts_append, ← List.append_assoc] at hsource
  have halone : Spells (Piece.texts bs) (bs.filterMap Piece.word?) [] := hspells.shorten
  rw [← String.toList_ofList (l := Piece.texts bs)] at halone
  obtain ⟨us, stop, hus, halike⟩ := ofSource_of_spells halone
  exact ⟨hsource, us, stop, hus, (Piece.alike_words bs _).symm.trans halike⟩

/-- The text from where a token of a source begins to where one ends is lexed as the tokens from the
    one to the other. -/
theorem exists_slice {before ts behind : List Token} {first last stop : Token}
    (h : ofSource source = .ok (before ++ ts ++ behind ++ [stop])) (hfirst : ts.head? = some first)
    (hlast : ts.getLast? = some last) :
    ∃ us stop', ofSource (String.ofList (slice (first.span.through last.span) source.toList)) =
      .ok (us ++ [endAt stop']) ∧ Alike ts us := by
  obtain ⟨ps, hsplits, hfine⟩ := splits_of_ofSource h
  rw [ofSource_of_splits hsplits hfine] at h
  obtain ⟨htokens, -⟩ := List.append_inj' (Except.ok.inj h) rfl
  obtain ⟨rest, rfl⟩ := List.head?_eq_some_iff.mp hfirst
  obtain ⟨init, hinit⟩ := List.getLast?_eq_some_iff.mp hlast
  obtain ⟨as, ps, rfl, hstart, hrest⟩ := Piece.exists_before (by simpa using htokens)
  rw [← List.cons_append, hinit] at hrest
  obtain ⟨bs, cs, rfl, hstop, hmiddle⟩ := Piece.exists_behind (by simpa using hrest)
  rw [← List.append_assoc] at hsplits hfine
  obtain ⟨hsource, us, stop', hus, halike⟩ := ofSource_of_pieces hsplits hfine
  have hspan : first.span.through last.span = ⟨.after .origin (Piece.texts as),
      .after (.after .origin (Piece.texts as)) (Piece.texts bs)⟩ := by
    rw [Span.through, hstart, hstop]
  rw [hspan, hsource, slice_of_append, hinit, ← hmiddle]
  exact ⟨us, stop', hus, halike⟩

/-- The text from where the first token of a source begins to its end is lexed as all of them. -/
theorem exists_slice_to_end {ts : List Token} {first stop : Token}
    (h : ofSource source = .ok (ts ++ [stop])) (hfirst : (ts ++ [stop]).head? = some first) :
    ∃ us stop', ofSource (String.ofList (slice (first.span.through stop.span) source.toList)) =
      .ok (us ++ [endAt stop']) ∧ Alike ts us := by
  obtain ⟨ps, hsplits, hfine⟩ := splits_of_ofSource h
  rw [ofSource_of_splits hsplits hfine] at h
  obtain ⟨htokens, hstop⟩ := List.append_inj' (Except.ok.inj h) rfl
  have hstopSpan : stop.span = .empty (Position.origin.after source.toList) := by
    rw [← List.singleton_inj.mp hstop]
    rfl
  -- the pieces are divided where the first token begins, be it the end marker
  obtain ⟨as, bs, rfl, hstart, hrest⟩ : ∃ as bs, ps = as ++ bs ∧
      first.span.start = Position.origin.after (Piece.texts as) ∧
      (Piece.located (.after .origin (Piece.texts as)) bs).filterMap Piece.token? = ts := by
    rcases ts with _ | ⟨t, ts⟩
    · obtain rfl : stop = first := Option.some.inj hfirst
      exact ⟨ps, [], by simp, by rw [hstopSpan, Piece.texts_of_splits hsplits]; rfl, rfl⟩
    · obtain rfl : t = first := Option.some.inj hfirst
      have hfront : (Piece.located .origin ps).filterMap Piece.token? = [] ++ t :: ts := htokens
      exact Piece.exists_before hfront
  rw [← List.append_nil (as ++ bs)] at hsplits hfine
  obtain ⟨hsource, us, stop', hus, halike⟩ := ofSource_of_pieces hsplits hfine
  have hspan : first.span.through stop.span = ⟨.after .origin (Piece.texts as),
      .after (.after .origin (Piece.texts as)) (Piece.texts bs)⟩ := by
    rw [Span.through, hstart, hstopSpan, hsource, ← Position.after_append]
    exact congrArg (Span.mk _ ∘ Position.origin.after) (List.append_nil _)
  rw [hspan, hsource, slice_of_append, ← hrest]
  exact ⟨us, stop', hus, halike⟩

end MiniLang.Token
