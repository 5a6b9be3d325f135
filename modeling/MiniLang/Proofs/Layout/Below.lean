/-
  Lexing goes line by line.

  What stands below some whole lines is lexed as it would be alone, unless a comment is still open
  above it: no piece reaches over the end of a line but a comment in a block.

  1. **Places** — `Layout.below cs` moves every place down below the lines `cs`: the line by their
     number, the index by their length, and the column not at all.
  2. **Pieces** — the division of a text into pieces is that of its first lines, followed by that of
     the others (`ofText_append`).
  3. **Tokens** — the tokens of the pieces below are their own tokens, moved down, and so is the
     error that stops them.
-/
import MiniLang.Proofs.Compiling.Outcomes
import MiniLang.Proofs.Layout.Placed
import MiniLang.Proofs.Lexing.Words

namespace MiniLang

/-! ## Places -/

/-- Whole lines: nothing, or a text that ends with a line feed. -/
def Text.WholeLines (cs : List Char) : Prop := ∀ c ∈ cs.getLast?, c = '\n'

open MiniLang.Text

namespace Position

/-- The same place below some lines. -/
def below (cs : List Char) (p : Position) : Position :=
  ⟨p.line + cs.count '\n', p.column, p.index + cs.length⟩

theorem after_below (cs ds : List Char) : ∀ p : Position,
    (p.below cs).after ds = (p.after ds).below cs := by
  induction ds with
  | nil => exact fun _ => rfl
  | cons d ds ih =>
    intro p
    have hnext : (p.below cs).next d = (p.next d).below cs := by
      unfold next below
      by_cases hd : d = '\n'
      · simp only [hd, if_true, Position.mk.injEq, true_and]
        omega
      · simp only [hd, if_false, Position.mk.injEq, true_and]
        omega
    rw [after_cons, after_cons, hnext, ih]

/-- Behind some lines a text begins again. -/
theorem after_wholeLines {cs : List Char} (h : WholeLines cs) :
    origin.after cs = origin.below cs := by
  rcases List.eq_nil_or_concat cs with rfl | ⟨ds, c, rfl⟩
  · rfl
  · rw [List.concat_eq_append] at h ⊢
    have hc : c = '\n' := h c (by simp)
    subst hc
    have hline := line_after origin (ds ++ ['\n'])
    have hindex := index_after origin (ds ++ ['\n'])
    rw [after_append, after_cons, after_nil, next, if_pos rfl] at hline hindex ⊢
    rw [below, ← hline, ← hindex]
    rfl

end Position

/-- Everything moves down below some lines. -/
def Layout.below (cs : List Char) : Layout := ⟨Position.below cs, Position.below cs⟩

/-- An error in another layout. -/
def LexError.placed (l : Layout) : LexError → LexError
  | unknownCharacter c span => unknownCharacter c (span.placed l)
  | oversizedNumber digits => oversizedNumber digits

/-- What lexing comes to in another layout: `move` tells how tokens are placed. -/
def Layout.lexed {α : Type} (l : Layout) (move : α → α) (x : Except LexError α) :
    Except LexError α := (x.map move).mapError (LexError.placed l)

namespace Token

namespace Piece

/-! ## Pieces -/

/-- A comment in a block that is never closed. -/
def Unclosed (piece : Piece) : Prop :=
  ∃ body, piece = ⟨.comment, '/' :: '*' :: body⟩ ∧ ¬ ['*', '/'] <:+: body

/-- The only pieces that may end with a line feed are blanks and comments in blocks, and behind
    every other piece stands the same character as before. -/
theorem fits_append {piece : Piece} {rest : List Char} (h : Fits piece rest)
    (hlines : WholeLines (piece.text ++ rest)) (hclosed : ¬ piece.Unclosed) (behind : List Char) :
    Fits piece (rest ++ behind) := by
  cases rest with
  | cons d ds =>
    cases h with
    | blank hc => exact .blank hc
    | lineComment hbody hrest => exact .lineComment hbody hrest
    | blockComment hbody => exact .blockComment hbody
    | number hc hmore hrest => exact .number hc hmore hrest
    | identifier hc hmore hrest => exact .identifier hc hmore hrest
    | pair hpair => exact .pair hpair
    | sign hsign hrest => exact .sign hsign hrest
  | nil =>
    rw [List.append_nil] at hlines
    -- the last character of the piece is a line feed, if it has one
    have hfeed : ∀ (c : Char) (more : List Char), piece.text = c :: more → '\n' ∈ c :: more := by
      intro c more htext
      have hlast := List.getLast?_eq_some_getLast (List.cons_ne_nil c more)
      rw [htext] at hlines
      rw [← hlines _ hlast]
      exact List.getLast_mem _
    cases h with
    | blank hc => exact .blank hc
    | blockComment hbody => exact .blockComment hbody
    | pair hpair => exact .pair hpair
    | @openComment body hbody => exact absurd ⟨body, rfl, hbody⟩ hclosed
    | @lineComment body _ hbody =>
      have hmem := hfeed '/' ('/' :: body) rfl
      simp only [List.mem_cons, hbody, or_false] at hmem
      exact absurd hmem (by decide)
    | @number c more _ hc hmore =>
      have hdigits : ∀ d ∈ c :: more, isDigit d = true := List.forall_mem_cons.mpr ⟨hc, hmore⟩
      exact absurd (hdigits _ (hfeed c more rfl)) (by decide)
    | @identifier c more _ hc hmore =>
      have hnames : ∀ d ∈ c :: more, isNameRest d = true :=
        List.forall_mem_cons.mpr ⟨isNameRest_of_isNameStart hc, hmore⟩
      exact absurd (hnames _ (hfeed c more rfl)) (by decide)
    | sign hsign =>
      have hc := List.mem_singleton.mp (hfeed _ _ rfl)
      rw [← hc] at hsign
      cases hsign

theorem wholeLines_of_append {cs ds : List Char} (h : WholeLines (cs ++ ds)) : WholeLines ds := by
  intro c hc
  refine h c ?_
  rw [List.getLast?_append, Option.mem_def.mp hc]
  rfl

/-- Whole lines are divided as they would be alone, and so is what stands below them. -/
theorem ofText_append {cs : List Char} {ps : List Piece} (h : Splits cs ps)
    (hlines : WholeLines cs) (hclosed : ∀ piece ∈ ps, ¬ piece.Unclosed) (behind : List Char) :
    ofText (cs ++ behind) = ps ++ ofText behind := by
  induction h with
  | nil => rfl
  | cons hfits _ ih =>
    obtain ⟨hfirst, hrest⟩ := List.forall_mem_cons.mp hclosed
    rw [List.append_assoc, ofText_of_fits (fits_append hfits hlines hfirst behind),
      ih (wholeLines_of_append hlines) hrest, List.cons_append]

/-! ## Tokens -/

section

variable (cs : List Char)

theorem ofPiece_below (p : Position) (piece : Piece) : ofPiece (p.below cs) piece =
    (Layout.below cs).lexed (Option.map (Token.placed (.below cs))) (ofPiece p piece) := by
  obtain ⟨cls, text⟩ := piece
  have hspan : (⟨p.below cs, (p.below cs).after text⟩ : Span) =
      Span.placed (.below cs) ⟨p, p.after text⟩ := by
    rw [Position.after_below]
    rfl
  unfold ofPiece
  simp only [hspan]
  cases cls with
  | number =>
    by_cases hlimit : digitLimit < text.length
    · simp only [hlimit, if_true]
      rfl
    · simp only [hlimit, if_false]
      rfl
  | _ => rfl

/-- Pieces make the same tokens below some lines, or stop with the same error, moved down. -/
theorem ofPieces_below : ∀ (ps : List Piece) (p : Position), ofPieces (p.below cs) ps =
    (Layout.below cs).lexed (List.map (Token.placed (.below cs))) (ofPieces p ps) := by
  intro ps
  induction ps with
  | nil => exact fun _ => rfl
  | cons piece ps ih =>
    intro p
    rw [ofPieces, ofPieces, ofPiece_below, Position.after_below, ih]
    cases ofPiece p piece with
    | error e => rfl
    | ok t =>
      cases t with
      | none => rfl
      | some token => cases ofPieces (p.after piece.text) ps <;> rfl

end

/-- The tokens of fine pieces come before those of the pieces behind them, or before their error. -/
theorem ofPieces_append {qs : List Piece} : ∀ {ps : List Piece} {p : Position},
    (∀ piece ∈ ps, Fine piece) → ofPieces p (ps ++ qs) =
      (ofPieces (p.after (texts ps)) qs).map ((located p ps).filterMap token? ++ ·) := by
  intro ps
  induction ps with
  | nil =>
    intro p _
    show ofPieces p qs = (ofPieces p qs).map id
    cases ofPieces p qs <;> rfl
  | cons piece ps ih =>
    intro p hfine
    obtain ⟨hpiece, hps⟩ := List.forall_mem_cons.mp hfine
    rw [List.cons_append, ofPieces, ofPiece_of_fine hpiece, ih hps, texts_cons,
      Position.after_append, located, List.filterMap_cons]
    cases token? (p, piece) with
    | none => rfl
    | some t => cases ofPieces ((p.after piece.text).after (texts ps)) qs <;> rfl

end Piece

/-! ## Lines and what stands below them -/

/-- Lexing a text stops at a piece with `before` in front of it, and with this error. -/
def StopsAt (cs before : List Char) (piece : Piece) (e : LexError) : Prop :=
  ∃ ps behind, Piece.ofText cs = ps ++ piece :: behind ∧ Piece.texts ps = before ∧
    (∀ other ∈ ps, Piece.Fine other) ∧ ofPiece (Position.origin.after before) piece = .error e

theorem exists_stop {source : String} {e : LexError} (h : ofSource source = .error e) :
    ∃ before piece, StopsAt source.toList before piece e := by
  obtain ⟨ps, piece, behind, q, hps, hfine, hstop⟩ := Piece.stop_of_ofPieces h
  refine ⟨Piece.texts ps, piece, ps, behind, hps, rfl, hfine, ?_⟩
  rw [ofSource, ofChars, hps, Piece.ofPieces_append hfine, ofPieces] at h
  cases hpiece : ofPiece (Position.origin.after (Piece.texts ps)) piece with
  | ok t =>
    rw [Piece.ofPiece_of_fine (Piece.fine_of_ofPiece hpiece)] at hstop
    cases hstop
  | error e' =>
    rw [hpiece] at h
    exact congrArg Except.error (Except.error.inj h)

section

variable {a b : String} {ps : List Piece}

/-- What stands below whole lines of which no comment is open is lexed as it would be alone. -/
theorem ofSource_append (hsplits : Piece.Splits a.toList ps)
    (hfine : ∀ piece ∈ ps, Piece.Fine piece) (hlines : WholeLines a.toList)
    (hclosed : ∀ piece ∈ ps, ¬ piece.Unclosed) :
    ofSource (a ++ b) = ((Layout.below a.toList).lexed (List.map (placed (.below a.toList)))
      (ofSource b)).map ((Piece.located .origin ps).filterMap Piece.token? ++ ·) := by
  rw [ofSource, ofChars, String.toList_append, Piece.ofText_append hsplits hlines hclosed,
    Piece.ofPieces_append hfine, Piece.texts_of_splits hsplits,
    Position.after_wholeLines hlines, Piece.ofPieces_below]
  rfl

/-- Where lexing stops below the lines is where it stops alone, at the same piece. -/
theorem StopsAt.below {before : List Char} {piece : Piece} {e : LexError}
    (h : StopsAt b.toList before piece e) (hsplits : Piece.Splits a.toList ps)
    (hfine : ∀ piece ∈ ps, Piece.Fine piece) (hlines : WholeLines a.toList)
    (hclosed : ∀ piece ∈ ps, ¬ piece.Unclosed) :
    StopsAt (a ++ b).toList (a.toList ++ before) piece (e.placed (.below a.toList)) := by
  obtain ⟨qs, behind, hqs, rfl, hqsFine, hstop⟩ := h
  refine ⟨ps ++ qs, behind, ?_, ?_, List.forall_mem_append.mpr ⟨hfine, hqsFine⟩, ?_⟩
  · rw [String.toList_append, Piece.ofText_append hsplits hlines hclosed, hqs, List.append_assoc]
  · rw [Piece.texts_append, Piece.texts_of_splits hsplits]
  · rw [Position.after_append, Position.after_wholeLines hlines, Position.after_below,
      Piece.ofPiece_below, hstop]
    rfl

end

/-- **Lexing goes line by line.**  Let `a` be nothing or end with a line feed, and let it have
    tokens and leave no comment open.  Then `a ++ b` has tokens exactly if `b` has: those of `a` but
    for its end marker, and then those of `b`, moved down by the lines and the length of `a` and
    with their columns as they were.  And where `b` has none, lexing `a ++ b` stops with the same
    error, moved down in the same way, at the same character or number. -/
theorem lexing_at_line_ends {a b : String} {tokens : List Token} (hlines : WholeLines a.toList)
    (ha : ofSource a = .ok tokens) (hclosed : ∀ piece ∈ Piece.ofText a.toList, ¬ piece.Unclosed) :
    ∃ ts stop, tokens = ts ++ [endAt stop] ∧
      ((∃ us, ofSource (a ++ b) = .ok us) ↔ ∃ us, ofSource b = .ok us) ∧
      (∀ us, ofSource b = .ok us →
        ofSource (a ++ b) = .ok (ts ++ us.map (placed (.below a.toList)))) ∧
      ∀ e, ofSource b = .error e →
        ofSource (a ++ b) = .error (e.placed (.below a.toList)) ∧
        (∃ before piece, StopsAt b.toList before piece e ∧
          StopsAt (a ++ b).toList (a.toList ++ before) piece (e.placed (.below a.toList))) ∧
        ∀ c span, e = .unknownCharacter c span → (e.placed (.below a.toList)).told = .ok
          { category := .lexical
            message := "Unknown character '" ++ String.singleton c ++ "' at offset " ++
              (span.start.index + a.length).repr
            span := some (span.placed (.below a.toList))
            hint := none } := by
  obtain ⟨ps, hsplits, hfine⟩ := splits_of_ofSource ha
  rw [(Piece.splits_iff.mp hsplits).1] at hclosed
  have happend := ofSource_append (b := b) hsplits hfine hlines hclosed
  rw [ofSource_of_splits hsplits hfine] at ha
  have hok : ∀ us, ofSource b = .ok us → ofSource (a ++ b) = .ok
      ((Piece.located .origin ps).filterMap Piece.token? ++ us.map (placed (.below a.toList))) := by
    intro us hb
    rw [happend, hb]
    rfl
  have herror : ∀ e, ofSource b = .error e →
      ofSource (a ++ b) = .error (e.placed (.below a.toList)) := by
    intro e hb
    rw [happend, hb]
    rfl
  refine ⟨_, _, (Except.ok.inj ha).symm, ⟨?_, fun ⟨us, hb⟩ => ⟨_, hok us hb⟩⟩, hok, ?_⟩
  · rintro ⟨us, hab⟩
    cases hb : ofSource b with
    | ok us => exact ⟨us, rfl⟩
    | error e =>
      rw [herror e hb] at hab
      cases hab
  · intro e hb
    obtain ⟨before, piece, hstop⟩ := exists_stop hb
    refine ⟨herror e hb, ⟨before, piece, hstop, hstop.below hsplits hfine hlines hclosed⟩, ?_⟩
    rintro c span rfl
    rw [← String.length_toList]
    rfl

/-- Three lines, with a comment that looks as if it opened another one. -/
def upper : String := "n=1; // /*\n/*\n*/ \n"

theorem upper_lower :
    WholeLines upper.toList ∧ (∀ piece ∈ Piece.ofText upper.toList, ¬ piece.Unclosed) ∧
    ∃ ts stop, ofSource upper = .ok (ts ++ [endAt stop]) ∧ ts.length = 4 ∧
      ofSource (upper ++ "*m") = .ok (ts ++
        [⟨.star, "*", ⟨⟨4, 1, 18⟩, ⟨4, 2, 19⟩⟩, none⟩, ⟨.name, "m", ⟨⟨4, 2, 19⟩, ⟨4, 3, 20⟩⟩, none⟩,
          endAt ⟨4, 3, 20⟩]) ∧
      ofSource (upper ++ "\n $") = .error (.unknownCharacter '$' ⟨⟨5, 2, 20⟩, ⟨5, 3, 21⟩⟩) := by
  have hlast : upper.toList.getLast? = some '\n' := by decide +kernel
  have hlines : WholeLines upper.toList := fun c hc => Option.some.inj (hc.symm.trans hlast)
  have hcomments : ∀ piece ∈ Piece.ofText upper.toList, piece.cls = .comment →
      piece.text.take 2 = ['/', '*'] → ['*', '/'] <:+: piece.text.drop 2 := by
    decide +kernel
  have hclosed : ∀ piece ∈ Piece.ofText upper.toList, ¬ piece.Unclosed := by
    rintro _ hmem ⟨body, rfl, hbody⟩
    exact hbody (hcomments _ hmem rfl rfl)
  have hlength : (ofSource upper).toOption.map List.length = some 5 := by decide +kernel
  obtain ⟨tokens, htokens, hlength⟩ := Option.map_eq_some_iff.mp hlength
  have hsource : ofSource upper = .ok tokens := eq_ok_of_toOption htokens
  obtain ⟨ts, stop, rfl, -, hok, -⟩ := lexing_at_line_ends (b := "*m") hlines hsource hclosed
  obtain ⟨-, -, -, -, -, herror⟩ := lexing_at_line_ends (b := "\n $") hlines hsource hclosed
  rw [List.length_append, List.length_singleton] at hlength
  have hstar : (ofSource "*m").toOption = some
      [⟨.star, "*", ⟨⟨1, 1, 0⟩, ⟨1, 2, 1⟩⟩, none⟩, ⟨.name, "m", ⟨⟨1, 2, 1⟩, ⟨1, 3, 2⟩⟩, none⟩,
        endAt ⟨1, 3, 2⟩] := by
    decide +kernel
  have hdollar : ofSource "\n $" = .error (.unknownCharacter '$' ⟨⟨2, 2, 2⟩, ⟨2, 3, 3⟩⟩) := by
    with_unfolding_all rfl
  refine ⟨hlines, hclosed, ts, stop, hsource, by omega, ?_, ?_⟩
  · exact hok _ (eq_ok_of_toOption hstar)
  · exact (herror _ hdollar).1

end Token

end MiniLang
