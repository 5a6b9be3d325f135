/-
  Every reported place is exact.

  1. **Exact places** — `Position.Exact cs p`: the line of `p` counts the line feeds before it, and
     its column counts from the last of them.  No other character counts for the line.  The place
     that a run of characters leads to is exact, and an exact place is such a place
     (`Position.exact_iff`).
  2. **Tokens** — `Token.InOrder`: every token covers some characters, the end marker none, and each
     begins where the one before it ends, or later.
  3. **The layout of a text** — `Layout.ofText cs` puts every place where its index belongs in the
     text.  It moves no token of the text, and so nothing in the report of it: what parsing and
     running make of the tokens they make in every layout.
-/
import MiniLang.Proofs.Layout.Reports
import MiniLang.Proofs.Layout.Spans

namespace MiniLang

/-! ## Exact places -/

namespace Position

/-- The index of the last line feed among the first `n` characters; one below zero if there is
    none. -/
def lastFeed (cs : List Char) (n : Nat) : Int :=
  match ((List.range n).filter fun i => cs[i]? = some '\n').getLast? with
  | some i => i
  | none => -1

/-- The place is the one that its index says, in a text. -/
structure Exact (cs : List Char) (p : Position) : Prop where
  index : p.index ≤ cs.length
  line : p.line = 1 + (cs.take p.index).count '\n'
  column : (p.column : Int) = p.index - lastFeed cs p.index

theorem lastFeed_succ (cs : List Char) (n : Nat) :
    lastFeed cs (n + 1) = if cs[n]? = some '\n' then (n : Int) else lastFeed cs n := by
  unfold lastFeed
  rw [List.range_succ, List.filter_append]
  by_cases h : cs[n]? = some '\n'
  · simp [h]
  · simp [h]

theorem after_take_succ {cs : List Char} {n : Nat} (h : n < cs.length) (p : Position) :
    p.after (cs.take (n + 1)) = (p.after (cs.take n)).next cs[n] := by
  rw [List.take_succ_eq_append_getElem h, after_append, after_cons, after_nil]

/-- The column starts again behind a line feed, and grows by one with any other character. -/
theorem column_after_take (cs : List Char) : ∀ n, n ≤ cs.length →
    ((origin.after (cs.take n)).column : Int) = n - lastFeed cs n := by
  intro n
  induction n with
  | zero => exact fun _ => rfl
  | succ n ih =>
    intro hn
    have hlt : n < cs.length := hn
    have hcolumn := ih (Nat.le_of_lt hlt)
    rw [after_take_succ hlt, lastFeed_succ, List.getElem?_eq_getElem hlt, next]
    by_cases hfeed : cs[n] = '\n'
    · simp only [hfeed, if_true]
      omega
    · simp only [hfeed, if_false, Option.some.injEq]
      omega

theorem index_after_take {cs : List Char} {n : Nat} (h : n ≤ cs.length) :
    (origin.after (cs.take n)).index = n := by
  rw [index_after, List.length_take, Nat.min_eq_left h]
  exact Nat.zero_add n

theorem exact_after_take {cs : List Char} {n : Nat} (h : n ≤ cs.length) :
    Exact cs (origin.after (cs.take n)) where
  index := by rw [index_after_take h]; exact h
  line := by rw [index_after_take h]; exact line_after origin _
  column := by rw [index_after_take h]; exact column_after_take cs n h

/-- The exact places in a text are those that its beginnings lead to. -/
theorem exact_iff {cs : List Char} {p : Position} :
    p.Exact cs ↔ p.index ≤ cs.length ∧ p = origin.after (cs.take p.index) := by
  constructor
  · intro h
    refine ⟨h.index, ?_⟩
    have hafter := exact_after_take h.index
    have hindex := index_after_take h.index
    obtain ⟨-, hline, hcolumn⟩ := hafter
    rw [hindex, ← h.line] at hline
    rw [hindex, ← h.column, Int.natCast_inj] at hcolumn
    obtain ⟨line, column, index⟩ := p
    generalize origin.after (cs.take index) = q at hline hcolumn hindex
    obtain ⟨line', column', index'⟩ := q
    simp only at hline hcolumn hindex
    rw [hline, hcolumn, hindex]
  · rintro ⟨hle, heq⟩
    rw [heq]
    exact exact_after_take hle

/-- Behind the beginning of a text. -/
theorem exact_after_append (before behind : List Char) :
    Exact (before ++ behind) (origin.after before) := by
  have hle : before.length ≤ (before ++ behind).length := by
    rw [List.length_append]
    exact Nat.le_add_right _ _
  have hexact := exact_after_take hle
  rwa [List.take_left] at hexact

end Position

/-- Both ends of the span are exact. -/
structure Span.Exact (cs : List Char) (s : Span) : Prop where
  start : s.start.Exact cs
  stop : s.stop.Exact cs

/-- The place of a part of a text. -/
theorem Span.exact_of_append (before text behind : List Char) :
    Span.Exact (before ++ text ++ behind)
      ⟨Position.origin.after before, (Position.origin.after before).after text⟩ where
  start := by
    rw [List.append_assoc]
    exact Position.exact_after_append before _
  stop := by
    rw [← Position.after_append]
    exact Position.exact_after_append _ behind

/-! ## Tokens -/

namespace Token

/-- The tokens stand one behind the other, and only an end marker covers no character. -/
structure InOrder (tokens : List Token) : Prop where
  covers : ∀ t ∈ tokens, t.kind ≠ .eof → t.span.start.index < t.span.stop.index
  empty : ∀ t ∈ tokens, t.kind = .eof → t.span.start = t.span.stop
  apart : tokens.Pairwise fun a b => a.span.stop.index ≤ b.span.start.index

namespace Piece

theorem exact_of_located {ps : List Piece} {q : Position} {piece : Piece}
    (h : (q, piece) ∈ located .origin ps) :
    Span.Exact (texts ps) ⟨q, q.after piece.text⟩ := by
  obtain ⟨before, behind, htexts, rfl⟩ := text_of_located h
  rw [htexts]
  exact Span.exact_of_append before piece.text behind

theorem text_ne_nil_of_mem : ∀ cs : List Char, ∀ piece ∈ ofText cs, piece.text ≠ [] := by
  intro cs
  fun_induction ofText cs with
  | case1 => exact List.forall_mem_nil _
  | case2 c cs ih => exact List.forall_mem_cons.mpr ⟨cut_text_ne_nil c cs, ih⟩

theorem le_of_located : ∀ {ps : List Piece} {p : Position}, ∀ b ∈ located p ps,
    p.index ≤ b.1.index := by
  intro p ps b hb
  obtain ⟨before, -, -, hq⟩ := text_of_located hb
  rw [hq, Position.index_after]
  exact Nat.le_add_right _ _

/-- Pieces stand one behind the other. -/
theorem located_apart : ∀ {ps : List Piece} {p : Position},
    (located p ps).Pairwise fun a b => (a.1.after a.2.text).index ≤ b.1.index := by
  intro ps
  induction ps with
  | nil => exact .nil
  | cons piece rest ih =>
    intro p
    exact .cons le_of_located ih

/-- A character that means nothing is reported in its place. -/
theorem located_of_error {c : Char} {span : Span} : ∀ {ps : List Piece} {p : Position},
    ofPieces p ps = .error (.unknownCharacter c span) →
    ∃ q piece, (q, piece) ∈ located p ps ∧ span = ⟨q, q.after piece.text⟩ := by
  intro ps
  induction ps with
  | nil => exact nofun
  | cons piece rest ih =>
    intro p h
    have hlater : ofPieces (p.after piece.text) rest = .error (.unknownCharacter c span) →
        ∃ q piece', (q, piece') ∈ located p (piece :: rest) ∧ span = ⟨q, q.after piece'.text⟩ := by
      intro hrest
      obtain ⟨q, piece', hmem, hspan⟩ := ih hrest
      exact ⟨q, piece', List.mem_cons_of_mem _ hmem, hspan⟩
    rw [ofPieces] at h
    cases hpiece : ofPiece p piece with
    | error e =>
      rw [hpiece] at h
      cases h
      refine ⟨p, piece, List.mem_cons_self, ?_⟩
      unfold ofPiece at hpiece
      split at hpiece
      case h_3 => split at hpiece <;> cases hpiece
      case h_6 => cases hpiece; rfl
      all_goals cases hpiece
    | ok t =>
      rw [hpiece] at h
      cases t with
      | none => exact hlater h
      | some t =>
        cases hrest : ofPieces (p.after piece.text) rest with
        | ok ts => simp only [hrest] at h; cases h
        | error e =>
          simp only [hrest] at h
          cases h
          exact hlater hrest

end Piece

variable {source : String} {tokens : List Token}

/-- What the tokens of a source are, piece by piece. -/
theorem eq_of_ofSource (h : ofSource source = .ok tokens) :
    tokens = (Piece.located .origin (Piece.ofText source.toList)).filterMap Piece.token? ++
      [endAt (Position.origin.after source.toList)] := by
  have htokens := (Piece.ofPieces_eq_ok_iff.mp h).2
  rwa [Piece.texts, Piece.flatten_pieces] at htokens

theorem exact_of_ofSource (h : ofSource source = .ok tokens) :
    ∀ t ∈ tokens, t.span.Exact source.toList := by
  intro t ht
  rw [eq_of_ofSource h] at ht
  rcases List.mem_append.mp ht with ht | ht
  · obtain ⟨⟨q, piece⟩, hmem, htoken⟩ := List.mem_filterMap.mp ht
    have hexact := Piece.exact_of_located hmem
    rwa [Piece.texts, Piece.flatten_pieces, ← Piece.span_of_token? htoken] at hexact
  · have hend := Position.exact_after_append source.toList []
    rw [List.append_nil] at hend
    rw [List.mem_singleton.mp ht]
    exact ⟨hend, hend⟩

theorem inOrder_of_ofSource (h : ofSource source = .ok tokens) : InOrder tokens := by
  obtain ⟨ts, stop, htokens, hunended, hstop⟩ := endsOnce_of_ofSource h
  have hpieces := eq_of_ofSource h
  obtain ⟨hts, hend⟩ := List.append_inj' (htokens.symm.trans hpieces) rfl
  have hplaces : ∀ t ∈ ts, ∃ q piece, (q, piece) ∈
      Piece.located .origin (Piece.ofText source.toList) ∧ t.span = ⟨q, q.after piece.text⟩ := by
    intro t ht
    rw [hts] at ht
    obtain ⟨⟨q, piece⟩, hmem, htoken⟩ := List.mem_filterMap.mp ht
    exact ⟨q, piece, hmem, Piece.span_of_token? htoken⟩
  have hstopSpan : stop.span = .empty (Position.origin.after source.toList) := by
    rw [List.singleton_inj.mp hend]
    rfl
  rw [htokens]
  constructor
  case covers =>
    intro t ht hkind
    rcases List.mem_append.mp ht with ht | ht
    · obtain ⟨q, piece, hmem, hspan⟩ := hplaces t ht
      have hne := Piece.text_ne_nil_of_mem _ piece (Piece.mem_of_located hmem)
      have hpos := List.length_pos_iff.mpr hne
      rw [hspan]
      show q.index < (q.after piece.text).index
      rw [Position.index_after]
      omega
    · rw [List.mem_singleton.mp ht] at hkind
      exact absurd hstop hkind
  case empty =>
    intro t ht hkind
    rcases List.mem_append.mp ht with ht | ht
    · exact absurd hkind (hunended t ht)
    · rw [List.mem_singleton.mp ht, hstopSpan]
      rfl
  case apart =>
    refine List.pairwise_append.mpr ⟨?_, List.pairwise_singleton _ _, ?_⟩
    · rw [hts]
      refine Piece.located_apart.filterMap _ ?_
      intro a b hab t ht t' ht'
      rw [Piece.span_of_token? ht, Piece.span_of_token? ht']
      exact hab
    · intro t ht t' ht'
      have hexact := exact_of_ofSource h t (htokens ▸ List.mem_append_left _ ht)
      rw [List.mem_singleton.mp ht', hstopSpan]
      show t.span.stop.index ≤ (Position.origin.after source.toList).index
      rw [Position.index_after]
      exact Nat.le_trans hexact.stop.index (Nat.le_add_left _ _)

end Token

/-! ## The layout of a text -/

/-- Every place where its index belongs in a text. -/
def Layout.ofText (cs : List Char) : Layout where
  start p := .after .origin (cs.take p.index)
  stop p := .after .origin (cs.take p.index)

theorem Span.placed_of_exact {cs : List Char} {s : Span} (h : s.Exact cs) :
    s.placed (.ofText cs) = s := by
  have hstart := (Position.exact_iff.mp h.start).2
  have hstop := (Position.exact_iff.mp h.stop).2
  rw [placed, Layout.ofText]
  simp only [← hstart, ← hstop]

/-- A place that stays is exact: its index is that of a beginning of the text. -/
theorem Position.exact_of_fixed {cs : List Char} {p : Position}
    (h : origin.after (cs.take p.index) = p) : p.Exact cs := by
  have hindex := congrArg Position.index h
  rw [index_after, List.length_take] at hindex
  have hle : p.index ≤ cs.length := by
    have hzero : origin.index = 0 := rfl
    omega
  exact exact_iff.mpr ⟨hle, h.symm⟩

theorem Span.exact_of_placed {cs : List Char} {s : Span} (h : s.placed (.ofText cs) = s) :
    s.Exact cs where
  start := Position.exact_of_fixed (congrArg Span.start h)
  stop := Position.exact_of_fixed (congrArg Span.stop h)

section

variable {source : String} {tokens : List Token}

/-- The tokens of a source stand where they are in its own layout. -/
theorem Token.placed_of_ofSource (h : ofSource source = .ok tokens) :
    tokens.map (placed (.ofText source.toList)) = tokens := by
  have hfixed : ∀ t ∈ tokens, t.placed (.ofText source.toList) = id t := by
    intro t ht
    rw [placed, Span.placed_of_exact (exact_of_ofSource h t ht)]
    rfl
  rw [List.map_congr_left hfixed, List.map_id]

/-- So does everything in the report of the tokens. -/
theorem Report.exact_of_tokens (h : Token.ofSource source = .ok tokens) (limits : Limits)
    (graphs : Bool) : ∀ s ∈ (ofTokens limits graphs tokens).spans, s.Exact source.toList := by
  intro s hs
  have hplaced := ofTokens_placed (l := .ofText source.toList) (Token.endsOnce_of_ofSource h)
    limits graphs
  rw [Token.placed_of_ofSource h] at hplaced
  exact Span.exact_of_placed (span_placed_of_fixed hplaced.symm s hs)

theorem LexError.exact_of_ofSource {error : LexError} (h : Token.ofSource source = .error error) :
    ∀ s ∈ error.spans, s.Exact source.toList := by
  cases error with
  | oversizedNumber digits => exact nofun
  | unknownCharacter c span =>
    intro s hs
    obtain ⟨q, piece, hmem, hspan⟩ := Token.Piece.located_of_error h
    have hexact := Token.Piece.exact_of_located hmem
    rw [List.mem_singleton.mp hs, hspan]
    rwa [Token.Piece.texts, Token.Piece.flatten_pieces] at hexact

/-- The report of a source without tokens names no place but that of the error. -/
theorem Report.spans_of_error {error : LexError} {limits : Limits} {graphs : Bool} {r : Report}
    (h : Token.ofSource source = .error error) (hr : ofSource limits graphs source = .ok r) :
    ∀ s ∈ r.spans, s ∈ error.spans := by
  rw [ofSource, Compilation.ofSource, h] at hr
  cases error with
  | oversizedNumber digits => cases hr
  | unknownCharacter c span =>
    cases hr
    intro s hs
    have hthree : s ∈ [span, span, span] := hs
    simp only [List.mem_cons, List.not_mem_nil, or_false, or_self] at hthree
    exact List.mem_singleton.mpr hthree

theorem Report.exact_of_ofSource {limits : Limits} {graphs : Bool} {r : Report}
    (hr : ofSource limits graphs source = .ok r) : ∀ s ∈ r.spans, s.Exact source.toList := by
  cases h : Token.ofSource source with
  | error error => exact fun s hs => LexError.exact_of_ofSource h s (spans_of_error h hr s hs)
  | ok tokens =>
    rw [ofSource_of_tokens limits graphs h] at hr
    cases hr
    exact exact_of_tokens h limits graphs

/-- A compilation is a part of the report of a run. -/
theorem Compilation.exact_of_ofSource {frames : Nat} {graphs : Bool} {c : Compilation}
    (hc : ofSource frames graphs source = .ok c) : ∀ s ∈ c.spans, s.Exact source.toList := by
  have hr : Report.ofSource ⟨none, 0, frames⟩ graphs source =
      .ok (.ofCompilation ⟨none, 0, frames⟩ c) := by
    rw [Report.ofSource, hc]
    rfl
  have hcompilation : (Report.ofCompilation ⟨none, 0, frames⟩ c).compilation = c := by
    rw [Report.ofCompilation]
    cases c.program <;> rfl
  intro s hs
  refine Report.exact_of_ofSource hr s (List.mem_append_left _ ?_)
  rwa [hcompilation]

end

/-- **Every reported place is exact.**  Whatever comes of a source -- its tokens or the error in the
    way of them, the compilation, or the report of a run under any limits -- both ends of every span
    in it are exact: they lie in the source, their line counts the line feeds before them, and their
    column counts from the last of these.  The tokens stand one behind the other, and only the end
    marker covers no character. -/
theorem places_exact (source : String) :
    (∀ tokens, Token.ofSource source = .ok tokens →
      Token.InOrder tokens ∧ ∀ t ∈ tokens, t.span.Exact source.toList) ∧
    (∀ error, Token.ofSource source = .error error → ∀ s ∈ error.spans, s.Exact source.toList) ∧
    (∀ frames graphs c, Compilation.ofSource frames graphs source = .ok c →
      ∀ s ∈ c.spans, s.Exact source.toList) ∧
    ∀ limits graphs r, Report.ofSource limits graphs source = .ok r →
      ∀ s ∈ r.spans, s.Exact source.toList := by
  refine ⟨?_, fun _ h => LexError.exact_of_ofSource h, fun _ _ _ h => Compilation.exact_of_ofSource h,
    fun _ _ _ h => Report.exact_of_ofSource h⟩
  intro tokens h
  exact ⟨Token.inOrder_of_ofSource h, Token.exact_of_ofSource h⟩

/-- A line feed in a comment, and behind it a tab, a carriage return and a line separator. -/
def broken : String := "/*\n*/x=1;\t\r\u2028print(x/0);"

/-- The same, up to a character that means nothing. -/
def brokenOff : String := "/*\n*/x=1;\t\r\u2028$"

theorem broken_places :
    (∃ tokens, Token.ofSource broken = .ok tokens ∧ tokens.length = 12 ∧ Token.InOrder tokens) ∧
    (∃ span, Token.ofSource brokenOff = .error (.unknownCharacter '$' span) ∧
      span = ⟨⟨2, 10, 12⟩, ⟨2, 11, 13⟩⟩ ∧ span.Exact brokenOff.toList) ∧
    ∃ r span, Report.ofSource ⟨some 9, 0, 60⟩ false broken = .ok r ∧
      r.error.bind (·.span) = some span ∧ span = ⟨⟨2, 16, 18⟩, ⟨2, 19, 21⟩⟩ ∧
      span.Exact broken.toList := by
  have hlength : (Token.ofSource broken).toOption.map List.length = some 12 := by decide +kernel
  have herror : Token.ofSource brokenOff =
      .error (.unknownCharacter '$' ⟨⟨2, 10, 12⟩, ⟨2, 11, 13⟩⟩) := by
    with_unfolding_all rfl
  have hreport : ((Report.ofSource ⟨some 9, 0, 60⟩ false broken).toOption.bind fun r =>
      r.error.bind (·.span)) = some ⟨⟨2, 16, 18⟩, ⟨2, 19, 21⟩⟩ := by
    decide +kernel
  obtain ⟨tokens, htokens, hlength⟩ := Option.map_eq_some_iff.mp hlength
  obtain ⟨r, hr, hspan⟩ := Option.bind_eq_some_iff.mp hreport
  have hsource : Token.ofSource broken = .ok tokens := Token.eq_ok_of_toOption htokens
  have hof : Report.ofSource ⟨some 9, 0, 60⟩ false broken = .ok r := Token.eq_ok_of_toOption hr
  refine ⟨⟨tokens, hsource, hlength, ((places_exact broken).1 _ hsource).1⟩,
    ⟨_, herror, rfl, (places_exact brokenOff).2.1 _ herror _ (List.mem_singleton_self _)⟩,
    r, _, hof, hspan, rfl, ?_⟩
  obtain ⟨issue, hissue, hissueSpan⟩ := Option.bind_eq_some_iff.mp hspan
  refine (places_exact broken).2.2.2 _ _ _ hof _ (List.mem_append_right _ ?_)
  rw [hissue]
  refine List.mem_flatMap.mpr ⟨issue, List.mem_singleton_self _, ?_⟩
  rw [Issue.spans, hissueSpan]
  exact List.mem_singleton_self _

end MiniLang
