/-
  The lexical grammar.

  `Splits cs ps` says, without any cutting, that `ps` is the greedy division of the text `cs` into
  pieces: each piece is of a form that the grammar knows, and reaches as far as its form allows
  before what follows it (`Fits`).

  1. **The grammar** — one rule for each form; `Fits piece rest` mentions what follows only to say
     that the piece could not be longer.
  2. **One piece** — cutting finds the piece that fits, and what it finds fits unless it is a
     character that means nothing (`fits_iff_cut`).
  3. **All pieces** — a text has a division exactly if no piece of it is unknown, and then it has
     just the one that cutting finds (`splits_iff`).
-/
import MiniLang.Proofs.Lexing.Classes
import MiniLang.Token.Piece

namespace MiniLang.Token

open MiniLang.Text

namespace Piece

/-! ## The grammar -/

/-- A piece of some form, as long as it can be before what follows. -/
inductive Fits : Piece → List Char → Prop
  /-- One blank. -/
  | blank {c rest} : isBlank c = true → Fits ⟨.blank, [c]⟩ rest
  /-- From `//` up to the end of the line, or of the text. -/
  | lineComment {body rest} : '\n' ∉ body → (∀ d ∈ rest.head?, d = '\n') →
      Fits ⟨.comment, '/' :: '/' :: body⟩ rest
  /-- From `/*` through the first `*/` behind it: none begins inside of the body. -/
  | blockComment {body rest} : ¬ ['*', '/'] <:+: body ++ ['*'] →
      Fits ⟨.comment, '/' :: '*' :: (body ++ ['*', '/'])⟩ rest
  /-- From `/*` to the end of the text, where it is never closed. -/
  | openComment {body} : ¬ ['*', '/'] <:+: body → Fits ⟨.comment, '/' :: '*' :: body⟩ []
  /-- A longest run of digits. -/
  | number {c more rest} : isDigit c = true → (∀ d ∈ more, isDigit d = true) →
      (∀ d ∈ rest.head?, isDigit d = false) → Fits ⟨.number, c :: more⟩ rest
  /-- A beginning of a name and the longest run of characters that continue it. -/
  | identifier {c more rest} : isNameStart c = true → (∀ d ∈ more, isNameRest d = true) →
      (∀ d ∈ rest.head?, isNameRest d = false) → Fits ⟨.identifier, c :: more⟩ rest
  /-- A sign of two characters. -/
  | pair {c d kind rest} : Kind.ofPair? c d = some kind → Fits ⟨.sign kind, [c, d]⟩ rest
  /-- A sign of one character that begins neither a sign of two nor a comment. -/
  | sign {c kind rest} : Kind.ofSign? c = some kind →
      (∀ d ∈ rest.head?, Kind.ofPair? c d = none ∧ ¬ (c = '/' ∧ (d = '/' ∨ d = '*'))) →
      Fits ⟨.sign kind, [c]⟩ rest

/-- A text and its greedy division. -/
inductive Splits : List Char → List Piece → Prop
  | nil : Splits [] []
  | cons {piece rest ps} : Fits piece rest → Splits rest ps →
      Splits (piece.text ++ rest) (piece :: ps)

/-- A piece that is more than a character without a meaning. -/
def Known (piece : Piece) : Prop := ∀ c, piece.cls ≠ .unknown c

/-! ## Runs -/

theorem run_of_all {cls : Class} {more : Char → Bool} {c : Char} {ds rest : List Char} :
    (∀ d ∈ ds, more d = true) → (∀ d ∈ rest.head?, more d = false) →
    run cls more c (ds ++ rest) = (⟨cls, c :: ds⟩, rest) := by
  intro hds hrest
  have hend : rest.takeWhile more = [] ∧ rest.dropWhile more = rest := by
    cases rest with
    | nil => exact ⟨rfl, rfl⟩
    | cons d rest =>
      have hd : more d = false := hrest d rfl
      rw [List.takeWhile_cons, List.dropWhile_cons, hd]
      exact ⟨rfl, rfl⟩
  rw [run, List.takeWhile_append_of_pos hds, List.dropWhile_append_of_pos hds, hend.1, hend.2,
    List.append_nil]

/-- What a run leaves does not continue it. -/
theorem head_dropWhile {more : Char → Bool} {cs : List Char} :
    ∀ d ∈ (cs.dropWhile more).head?, more d = false := by
  intro d hd
  have hhead := List.head?_dropWhile_not more cs
  rw [Option.mem_def.mp hd] at hhead
  exact hhead

/-! ## Comments in blocks -/

/-- Neither does a `*/` begin in front nor later. -/
theorem open_cons_iff {c : Char} {cs : List Char} : ¬ ['*', '/'] <:+: c :: cs ↔
    ¬ (c = '*' ∧ cs.head? = some '/') ∧ ¬ ['*', '/'] <:+: cs := by
  rw [List.infix_cons_iff, not_or]
  have hfront : ['*', '/'] <+: c :: cs ↔ c = '*' ∧ cs.head? = some '/' := by
    cases cs with
    | nil => simp
    | cons d cs => simp [eq_comm]
  rw [hfront]

theorem closeComment_cons {c : Char} {cs : List Char} : ¬ (c = '*' ∧ cs.head? = some '/') →
    closeComment (c :: cs) = (c :: (closeComment cs).1, (closeComment cs).2) := by
  intro h
  rw [closeComment]
  rintro rest rfl rfl
  exact h ⟨rfl, rfl⟩

theorem closeComment_of_closed {rest : List Char} : ∀ {body : List Char},
    ¬ ['*', '/'] <:+: body ++ ['*'] →
    closeComment (body ++ '*' :: '/' :: rest) = (body ++ ['*', '/'], rest) := by
  intro body
  induction body with
  | nil => intro _; rfl
  | cons c body ih =>
    intro h
    rw [List.cons_append, open_cons_iff] at h
    -- the closing characters matter to the head only where the body is empty
    have hhead : (body ++ '*' :: '/' :: rest).head? = (body ++ ['*']).head? := by
      cases body <;> rfl
    rw [List.cons_append, closeComment_cons (by rw [hhead]; exact h.1), ih h.2]
    rfl

theorem closeComment_of_open : ∀ {body : List Char}, ¬ ['*', '/'] <:+: body →
    closeComment body = (body, []) := by
  intro body
  induction body with
  | nil => intro _; rfl
  | cons c body ih =>
    intro h
    rw [open_cons_iff] at h
    rw [closeComment_cons h.1, ih h.2]

/-- A text behind `/*` is closed somewhere for the first time, or is never closed. -/
theorem closed_or_open : ∀ cs : List Char,
    (∃ body rest, ¬ ['*', '/'] <:+: body ++ ['*'] ∧ cs = body ++ '*' :: '/' :: rest) ∨
    ¬ ['*', '/'] <:+: cs := by
  intro cs
  induction cs with
  | nil => exact Or.inr (by simp)
  | cons c cs ih =>
    by_cases hfront : c = '*' ∧ cs.head? = some '/'
    · obtain ⟨rfl, hhead⟩ := hfront
      cases cs with
      | nil => cases hhead
      | cons d rest =>
        cases hhead
        exact Or.inl ⟨[], rest, by decide, rfl⟩
    · rcases ih with ⟨body, rest, hbody, rfl⟩ | hopen
      · refine Or.inl ⟨c :: body, rest, ?_, rfl⟩
        have hhead : (body ++ '*' :: '/' :: rest).head? = (body ++ ['*']).head? := by
          cases body <;> rfl
        rw [hhead] at hfront
        exact open_cons_iff.mpr ⟨hfront, hbody⟩
      · exact Or.inr (open_cons_iff.mpr ⟨hfront, hopen⟩)

/-! ## One piece -/

section OnePiece

variable {c : Char} {cs : List Char}

theorem cut_of_blank : isBlank c = true → cut c cs = single .blank c cs := by
  intro h
  rw [cut, if_pos h]

theorem cut_lineComment : cut '/' ('/' :: cs) = run .comment (· ≠ '\n') '/' ('/' :: cs) := by
  rw [cut, if_neg (by decide), if_pos ⟨rfl, rfl⟩]

theorem cut_blockComment : cut '/' ('*' :: cs) =
    (⟨.comment, '/' :: '*' :: (closeComment cs).1⟩, (closeComment cs).2) := by
  rw [cut, if_neg (by decide), if_neg (by simp), if_pos ⟨rfl, rfl⟩]
  rfl

theorem cut_of_digit : isDigit c = true → cut c cs = run .number isDigit c cs := by
  intro h
  have hslash : c ≠ '/' := by
    rintro rfl
    exact absurd h (by decide)
  rw [cut, if_neg (by simp [not_blank_of_digit h]), if_neg (by simp [hslash]),
    if_neg (by simp [hslash]), if_pos h]

theorem cut_of_nameStart : isNameStart c = true →
    cut c cs = run .identifier isNameRest c cs := by
  intro h
  have hslash : c ≠ '/' := by
    rintro rfl
    exact absurd h (by decide)
  rw [cut, if_neg (by simp [not_blank_of_nameStart h]), if_neg (by simp [hslash]),
    if_neg (by simp [hslash]), if_neg (by simp [not_digit_of_nameStart h]), if_pos h]

theorem cut_of_signLike : isSignLike c = true →
    ¬ (c = '/' ∧ (cs.head? = some '/' ∨ cs.head? = some '*')) → cut c cs = cutSign c cs := by
  intro h hcomment
  obtain ⟨hblank, hdigit, hname⟩ := isSignLike_iff.mp h
  rw [cut, if_neg (by simp [hblank]), if_neg (fun hc => hcomment ⟨hc.1, Or.inl hc.2⟩),
    if_neg (fun hc => hcomment ⟨hc.1, Or.inr hc.2⟩), if_neg (by simp [hdigit]),
    if_neg (by simp [hname])]

end OnePiece

/-- The piece that fits is the one that is cut. -/
theorem cut_of_fits {piece : Piece} {rest : List Char} : Fits piece rest →
    ∀ {c : Char} {cs : List Char}, piece.text ++ rest = c :: cs → cut c cs = (piece, rest) := by
  intro h c cs htext
  cases h with
  | blank hblank =>
    cases htext
    exact cut_of_blank hblank
  | @lineComment body rest hbody hrest =>
    cases htext
    show cut '/' ('/' :: (body ++ rest)) = _
    rw [cut_lineComment]
    show run _ _ _ (('/' :: body) ++ rest) = _
    refine run_of_all ?_ ?_
    · intro d hd
      rcases List.mem_cons.mp hd with rfl | hd
      · decide
      · exact decide_eq_true fun heq => hbody (heq ▸ hd)
    · intro d hd
      exact decide_eq_false (not_not_intro (hrest d hd))
  | blockComment hbody =>
    simp only [List.cons_append, List.append_assoc, List.nil_append] at htext
    cases htext
    rw [cut_blockComment, closeComment_of_closed hbody]
  | openComment hbody =>
    rw [List.append_nil] at htext
    cases htext
    rw [cut_blockComment, closeComment_of_open hbody]
  | number hc hmore hrest =>
    cases htext
    rw [cut_of_digit hc]
    exact run_of_all hmore hrest
  | identifier hc hmore hrest =>
    cases htext
    rw [cut_of_nameStart hc]
    exact run_of_all hmore hrest
  | @pair _ d _ _ hpair =>
    cases htext
    show cut c (d :: rest) = _
    obtain ⟨hlike, hslash⟩ := isSignLike_of_pair hpair
    rw [cut_of_signLike hlike (fun h => hslash h.1)]
    simp only [cutSign, hpair]
  | sign hsign hrest =>
    cases htext
    have hcomment : ¬ (c = '/' ∧ (rest.head? = some '/' ∨ rest.head? = some '*')) := by
      rintro ⟨hc, hd | hd⟩
      · exact (hrest '/' hd).2 ⟨hc, Or.inl rfl⟩
      · exact (hrest '*' hd).2 ⟨hc, Or.inr rfl⟩
    show cut c rest = _
    rw [cut_of_signLike (isSignLike_of_sign hsign) hcomment]
    cases rest with
    | nil => simp only [cutSign, hsign, single, Option.elim_some]
    | cons d ds => simp only [cutSign, (hrest d rfl).1, hsign, single, Option.elim_some]

theorem known_of_fits {piece : Piece} {rest : List Char} : Fits piece rest → Known piece := by
  intro h c hc
  cases h <;> cases hc

/-- What is cut fits, unless it means nothing. -/
theorem fits_of_cut {c : Char} {cs : List Char} : Known (cut c cs).1 →
    Fits (cut c cs).1 (cut c cs).2 := by
  intro h
  by_cases hblank : isBlank c = true
  · rw [cut_of_blank hblank]
    exact .blank hblank
  by_cases hdigit : isDigit c = true
  · rw [cut_of_digit hdigit]
    exact .number hdigit (fun d hd => List.all_eq_true.mp List.all_takeWhile d hd) head_dropWhile
  by_cases hname : isNameStart c = true
  · rw [cut_of_nameStart hname]
    exact .identifier hname (fun d hd => List.all_eq_true.mp List.all_takeWhile d hd)
      head_dropWhile
  -- what is left begins a comment or a sign, or means nothing
  have hlike : isSignLike c = true := by
    simp only [Bool.not_eq_true] at hblank hdigit hname
    exact isSignLike_iff.mpr ⟨hblank, hdigit, hname⟩
  cases cs with
  | nil =>
    rw [cut_of_signLike hlike (by simp)] at h ⊢
    cases hsign : Kind.ofSign? c with
    | none =>
      simp only [cutSign, hsign, single, Option.elim_none] at h
      exact absurd rfl (h c)
    | some kind =>
      simp only [cutSign, hsign, single, Option.elim_some]
      exact .sign hsign (by simp)
  | cons d ds =>
    by_cases hline : c = '/' ∧ d = '/'
    · obtain ⟨rfl, rfl⟩ := hline
      rw [cut_lineComment]
      refine @Fits.lineComment (ds.takeWhile (· ≠ '\n')) _ ?_ ?_
      · intro hmem
        have hne := List.all_eq_true.mp List.all_takeWhile _ hmem
        simp at hne
      · intro d hd
        simpa using head_dropWhile d hd
    by_cases hblock : c = '/' ∧ d = '*'
    · obtain ⟨rfl, rfl⟩ := hblock
      -- where the comment ends is a question about the text behind its opener
      rw [cut_blockComment]
      rcases closed_or_open ds with ⟨body, rest, hbody, rfl⟩ | hopen
      · rw [closeComment_of_closed hbody]
        exact .blockComment hbody
      · rw [closeComment_of_open hopen]
        exact .openComment hopen
    · have hcomment : ¬ (c = '/' ∧ ((d :: ds).head? = some '/' ∨ (d :: ds).head? = some '*')) := by
        rintro ⟨hc, hd | hd⟩
        · cases hd
          exact hline ⟨hc, rfl⟩
        · cases hd
          exact hblock ⟨hc, rfl⟩
      rw [cut_of_signLike hlike hcomment] at h ⊢
      cases hpair : Kind.ofPair? c d with
      | some kind =>
        simp only [cutSign, hpair]
        exact .pair hpair
      | none =>
        cases hsign : Kind.ofSign? c with
        | none =>
          simp only [cutSign, hpair, hsign, single, Option.elim_none] at h
          exact absurd rfl (h c)
        | some kind =>
          simp only [cutSign, hpair, hsign, single, Option.elim_some]
          refine .sign hsign ?_
          intro e he
          cases he
          refine ⟨hpair, ?_⟩
          rintro ⟨hc, hd | hd⟩
          · exact hline ⟨hc, hd⟩
          · exact hblock ⟨hc, hd⟩

/-! ## All pieces -/

/-- A text has at most one greedy division, the one that cutting finds. -/
theorem ofText_of_splits {cs : List Char} {ps : List Piece} : Splits cs ps →
    ofText cs = ps ∧ ∀ piece ∈ ps, Known piece := by
  intro h
  induction h with
  | nil => exact ⟨ofText_nil, nofun⟩
  | @cons piece rest ps hfits _ ih =>
    obtain ⟨c, cs, htext⟩ : ∃ c cs, piece.text ++ rest = c :: cs := by
      cases hfits <;> exact ⟨_, _, rfl⟩
    have hcut := cut_of_fits hfits htext
    rw [htext, ofText_cons, hcut]
    refine ⟨by rw [ih.1], ?_⟩
    intro p hp
    rcases List.mem_cons.mp hp with rfl | hp
    · exact known_of_fits hfits
    · exact ih.2 p hp

theorem splits_ofText : ∀ cs : List Char, (∀ piece ∈ ofText cs, Known piece) →
    Splits cs (ofText cs) := by
  intro cs
  fun_induction ofText cs with
  | case1 =>
    intro _
    exact .nil
  | case2 c cs ih =>
    intro h
    have hfits := fits_of_cut (h _ List.mem_cons_self)
    have hrest := ih fun piece hp => h piece (List.mem_cons_of_mem _ hp)
    have hsplits := Splits.cons hfits hrest
    rwa [cut_text_append] at hsplits

/-- The division of a text is what cutting finds, if all of that is known. -/
theorem splits_iff {cs : List Char} {ps : List Piece} :
    Splits cs ps ↔ ofText cs = ps ∧ ∀ piece ∈ ps, Known piece := by
  constructor
  · exact ofText_of_splits
  · rintro ⟨rfl, h⟩
    exact splits_ofText cs h

end Piece

end MiniLang.Token
