/-
  What compiling a text comes to.

  A text does not compile at all exactly if lexing comes to an oversized number, and then the
  refusal tells its digits.  Every other text is compiled, with one of three outcomes.

  1. **Fronts** — `SplitsUpTo cs ps rest`: the text `cs` begins with the greedy pieces `ps`, and
     `rest` is what stands behind them.
  2. **Stops** — the pieces become tokens up to the first one that is not fine.  So an oversized
     number is met exactly if all before it is divided into fine pieces (`ofSource_oversized_iff`).
  3. **Remarks** — `redefinitions fs`: those of the definitions `fs` whose name an earlier one has.
  4. **Outcomes** — one structure for each of the three, and `compile_outcomes`.
-/
import MiniLang.Compilation
import MiniLang.Proofs.Lexing.Exact

namespace MiniLang

open Token (Piece digitLimit)

/-! ## Fronts -/

namespace Token.Piece

/-- A text, the greedy pieces that it begins with, and what stands behind them. -/
inductive SplitsUpTo : List Char → List Piece → List Char → Prop
  | nil {cs} : SplitsUpTo cs [] cs
  | cons {piece rest ps cs} : Fits piece rest → SplitsUpTo rest ps cs →
      SplitsUpTo (piece.text ++ rest) (piece :: ps) cs

/-- Cutting finds the piece that fits. -/
theorem ofText_of_fits {piece : Piece} {rest : List Char} (h : Fits piece rest) :
    ofText (piece.text ++ rest) = piece :: ofText rest := by
  obtain ⟨c, cs, htext⟩ : ∃ c cs, piece.text ++ rest = c :: cs := by
    cases h <;> exact ⟨_, _, rfl⟩
  rw [htext, ofText_cons, cut_of_fits h htext]

theorem ofText_of_splitsUpTo {cs rest : List Char} {ps : List Piece} (h : SplitsUpTo cs ps rest) :
    ofText cs = ps ++ ofText rest := by
  induction h with
  | nil => rfl
  | cons hfits _ ih => rw [ofText_of_fits hfits, ih, List.cons_append]

/-- The last of the pieces fits before what stands behind them. -/
theorem splitsUpTo_concat {piece : Piece} {rest : List Char} : ∀ {ps : List Piece} {cs : List Char},
    SplitsUpTo cs (ps ++ [piece]) rest →
    SplitsUpTo cs ps (piece.text ++ rest) ∧ Fits piece rest := by
  intro ps
  induction ps with
  | nil =>
    intro cs h
    cases h with
    | cons hfits hrest =>
      cases hrest with
      | nil => exact ⟨.nil, hfits⟩
  | cons first ps ih =>
    intro cs h
    cases h with
    | cons hfirst hrest =>
      obtain ⟨hfront, hfits⟩ := ih hrest
      exact ⟨.cons hfirst hfront, hfits⟩

/-- The first pieces of a text are greedy ones as long as they mean something. -/
theorem splitsUpTo_of_ofText : ∀ {before behind : List Piece} {cs : List Char},
    ofText cs = before ++ behind → (∀ piece ∈ before, Known piece) →
    SplitsUpTo cs before (texts behind) := by
  intro before
  induction before with
  | nil =>
    intro behind cs h _
    have hcs : texts behind = cs := by
      rw [← List.nil_append behind, ← h]
      exact flatten_pieces cs
    rw [hcs]
    exact .nil
  | cons piece before ih =>
    intro behind cs h hknown
    cases cs with
    | nil =>
      rw [ofText_nil] at h
      cases h
    | cons c cs =>
      obtain ⟨hfirst, hrest⟩ := List.forall_mem_cons.mp hknown
      rw [ofText_cons] at h
      obtain ⟨rfl, htail⟩ := List.cons_eq_cons.mp h
      rw [← cut_text_append c cs]
      exact .cons (fits_of_cut hfirst) (ih htail hrest)

end Token.Piece

/-! ## Stops -/

namespace Token

/-- Lexing a text comes to a number of so many digits that is oversized: all before it is divided
    into pieces, none of which is oversized. -/
def MeetsOversized (cs : List Char) (n : Nat) : Prop :=
  ∃ ps digits rest, Piece.SplitsUpTo cs ps (digits ++ rest) ∧ (∀ piece ∈ ps, Piece.Fine piece) ∧
    Piece.Fits ⟨.number, digits⟩ rest ∧ digits.length = n ∧ digitLimit < n

namespace Piece

/-- Where pieces do not become tokens, they stop at the first one that is not fine. -/
theorem stop_of_ofPieces : ∀ {ps : List Piece} {p : Position} {e : LexError},
    ofPieces p ps = .error e → ∃ before piece behind q, ps = before ++ piece :: behind ∧
      (∀ other ∈ before, Fine other) ∧ ofPiece q piece = .error e := by
  intro ps
  induction ps with
  | nil =>
    intro p e h
    cases h
  | cons piece rest ih =>
    intro p e h
    rw [ofPieces] at h
    cases hpiece : ofPiece p piece with
    | error e' =>
      rw [hpiece] at h
      cases h
      exact ⟨[], piece, rest, p, rfl, List.forall_mem_nil _, hpiece⟩
    | ok t =>
      have hlater : ofPieces (p.after piece.text) rest = .error e := by
        cases hrest : ofPieces (p.after piece.text) rest with
        | error e' =>
          rw [hpiece, hrest] at h
          cases t with
          | none => exact h
          | some token => exact h
        | ok ts =>
          rw [hpiece, hrest] at h
          cases t <;> cases h
      obtain ⟨before, other, behind, q, rfl, hfine, hstop⟩ := ih hlater
      exact ⟨piece :: before, other, behind, q, rfl,
        List.forall_mem_cons.mpr ⟨fine_of_ofPiece hpiece, hfine⟩, hstop⟩

/-- An oversized number behind fine pieces stops them. -/
theorem ofPieces_oversized {digits : List Char} {behind : List Piece}
    (hlimit : digitLimit < digits.length) : ∀ {before : List Piece} {p : Position},
    (∀ piece ∈ before, Fine piece) →
    ofPieces p (before ++ ⟨.number, digits⟩ :: behind) =
      .error (.oversizedNumber digits.length) := by
  intro before
  induction before with
  | nil =>
    intro p _
    rw [List.nil_append, ofPieces]
    simp only [ofPiece, if_pos hlimit]
  | cons piece before ih =>
    intro p hfine
    obtain ⟨hpiece, hrest⟩ := List.forall_mem_cons.mp hfine
    rw [List.cons_append, ofPieces, ofPiece_of_fine hpiece p, ih hrest]
    cases token? (p, piece) <;> rfl

/-- The only piece that is refused for its size is a number with more digits than the limit. -/
theorem oversized_of_ofPiece {piece : Piece} {p : Position} {n : Nat}
    (h : ofPiece p piece = .error (.oversizedNumber n)) :
    piece.cls = .number ∧ piece.text.length = n ∧ digitLimit < n := by
  obtain ⟨cls, text⟩ := piece
  cases cls with
  | number =>
    simp only [ofPiece] at h
    split at h
    · next hlimit =>
      cases h
      exact ⟨rfl, rfl, hlimit⟩
    · cases h
  | blank => cases h
  | comment => cases h
  | identifier => cases h
  | sign kind => cases h
  | unknown c => cases h

end Piece

/-- A source is refused for a number exactly if lexing comes to it. -/
theorem ofSource_oversized_iff {source : String} {n : Nat} :
    ofSource source = .error (.oversizedNumber n) ↔ MeetsOversized source.toList n := by
  constructor
  · intro h
    obtain ⟨before, piece, behind, q, hps, hfine, hstop⟩ := Piece.stop_of_ofPieces h
    obtain ⟨hcls, hlength, hlimit⟩ := Piece.oversized_of_ofPiece hstop
    have hknown : Piece.Known piece := by
      intro c hc
      rw [hcls] at hc
      cases hc
    have hup : Piece.SplitsUpTo source.toList (before ++ [piece]) (Piece.texts behind) := by
      refine Piece.splitsUpTo_of_ofText (by rw [hps, List.append_assoc]; rfl) ?_
      intro other hother
      rcases List.mem_append.mp hother with hother | hother
      · exact (hfine other hother).1
      · rw [List.mem_singleton.mp hother]
        exact hknown
    obtain ⟨hfront, hfits⟩ := Piece.splitsUpTo_concat hup
    obtain ⟨cls, digits⟩ := piece
    cases hcls
    exact ⟨before, digits, Piece.texts behind, hfront, hfine, hfits, hlength, hlimit⟩
  · rintro ⟨ps, digits, rest, hfront, hfine, hfits, rfl, hlimit⟩
    have htext : Piece.ofText (digits ++ rest) = ⟨.number, digits⟩ :: Piece.ofText rest :=
      Piece.ofText_of_fits hfits
    rw [ofSource, ofChars, Piece.ofText_of_splitsUpTo hfront, htext]
    exact Piece.ofPieces_oversized hlimit hfine

/-- The tokens of a source that can be divided: one for each piece that makes one, in order, and the
    end marker behind the last character. -/
def Complete (source : String) (tokens : List Token) : Prop :=
  ∃ ps, Piece.Splits source.toList ps ∧
    tokens = (Piece.located .origin ps).filterMap Piece.token? ++
      [endAt (.after .origin source.toList)]

theorem complete_of_ofSource {source : String} {tokens : List Token}
    (h : ofSource source = .ok tokens) : Complete source tokens := by
  obtain ⟨ps, hsplits, hfine⟩ := splits_of_ofSource h
  rw [ofSource_of_splits hsplits hfine] at h
  cases h
  exact ⟨ps, hsplits, rfl⟩

/-- A source with a character that means nothing has no division. -/
theorem undivided_of_unknown {source : String} {c : Char} {span : Span}
    (h : ofSource source = .error (.unknownCharacter c span)) :
    ¬ ∃ ps, Piece.Splits source.toList ps := by
  rintro ⟨ps, hsplits⟩
  obtain ⟨hps, hknown⟩ := Piece.splits_iff.mp hsplits
  obtain ⟨before, piece, behind, q, heq, -, hstop⟩ := Piece.stop_of_ofPieces h
  have hmem : piece ∈ ps := by
    rw [← hps, heq]
    exact List.mem_append_right _ List.mem_cons_self
  obtain ⟨cls, text⟩ := piece
  cases cls with
  | unknown d => exact hknown _ hmem d rfl
  | number =>
    simp only [ofPiece] at hstop
    split at hstop <;> cases hstop
  | blank => cases hstop
  | comment => cases hstop
  | identifier => cases hstop
  | sign kind => cases hstop

end Token

/-! ## Remarks -/

/-- Those of some definitions whose name an earlier one has, in order. -/
def redefinitions (fs : List FunctionDef) : List FunctionDef :=
  (fs.zipIdx.filter fun (f, i) => (fs.take i).any (·.name == f.name)).map (·.1)

namespace Compilation

/-- The remark that a function is defined again. -/
def redefinitionRemark (f : FunctionDef) : Diagnostic :=
  ⟨.warning, "Function '" ++ f.name ++ "' is defined more than once; the last definition wins.",
    some f.span, none⟩

/-- By induction on the definitions that are left, with those before them. -/
theorem duplicates_eq : ∀ (rest before : List FunctionDef) (seen : List String),
    (∀ name, name ∈ seen ↔ ∃ g ∈ before, g.name = name) →
    duplicates seen rest =
      ((rest.zipIdx before.length).filter fun (f, i) =>
        ((before ++ rest).take i).any (·.name == f.name)).map fun (f, _) => redefinitionRemark f := by
  intro rest
  induction rest with
  | nil => exact fun _ _ _ => rfl
  | cons f rest ih =>
    intro before seen hseen
    have hbefore : ((before ++ f :: rest).take before.length).any (·.name == f.name) =
        decide (f.name ∈ seen) := by
      rw [List.take_left, Bool.eq_iff_iff, decide_eq_true_iff, hseen, List.any_eq_true]
      simp only [beq_iff_eq]
    have hnames : ∀ name, (∃ g ∈ before ++ [f], g.name = name) ↔ name ∈ seen ∨ f.name = name := by
      intro name
      simp only [List.mem_append, List.mem_singleton, or_and_right, exists_or, exists_eq_left, hseen]
    have hlater := fun seen' => ih (before ++ [f]) seen'
    rw [List.append_assoc, List.singleton_append, List.length_append, List.length_singleton]
      at hlater
    rw [duplicates, List.zipIdx_cons, List.filter_cons]
    by_cases hagain : f.name ∈ seen
    · rw [if_pos hagain]
      simp only [hbefore, hagain, decide_true, if_true, List.map_cons]
      congr 1
      refine hlater seen fun name => ?_
      rw [hnames, or_iff_left_of_imp]
      rintro rfl
      exact hagain
    · rw [if_neg hagain]
      simp only [hbefore, hagain, decide_false, if_false, Bool.false_eq_true]
      refine hlater (f.name :: seen) fun name => ?_
      rw [hnames, List.mem_cons, or_comm, @eq_comm _ name]

theorem duplicates_nil (fs : List FunctionDef) :
    duplicates [] fs = (redefinitions fs).map redefinitionRemark := by
  have hnone : ∀ name, name ∈ ([] : List String) ↔ ∃ g ∈ ([] : List FunctionDef), g.name = name := by
    simp
  rw [duplicates_eq fs [] [] hnone, redefinitions, List.map_map]
  rfl

/-- The remark on a function whose graph has an entry, an exit and a node for each statement at the
    top of its body. -/
def sizeRemark (f : FunctionDef) : Diagnostic :=
  ⟨.info, "[CFG] Function " ++ f.name ++ " has " ++ (f.body.inside.length + 2).repr ++ " nodes",
    some f.span, none⟩

theorem graphRemark_eq (f : FunctionDef) : graphRemark f = sizeRemark f := by
  rw [graphRemark, FlowGraph.length_ofFunction, sizeRemark]

theorem diagnostics_succeeded (graphs : Bool) (tokens : List Token) (p : Program) :
    (succeeded graphs tokens p).diagnostics = (redefinitions p.functions).map redefinitionRemark ++
      if graphs then p.functions.map sizeRemark else [] := by
  rw [succeeded, duplicates_nil, List.map_congr_left fun f _ => graphRemark_eq f]

/-- Remarks on a program are no errors. -/
theorem severity_of_remark {fs : List FunctionDef} {graphs : Bool} :
    ∀ d ∈ (redefinitions fs).map redefinitionRemark ++ (if graphs then fs.map sizeRemark else []),
      d.severity ≠ .error := by
  intro d hd
  rcases List.mem_append.mp hd with hd | hd
  · obtain ⟨f, -, rfl⟩ := List.mem_map.mp hd
    exact nofun
  · cases graphs with
    | false => cases hd
    | true =>
      obtain ⟨f, -, rfl⟩ := List.mem_map.mp hd
      exact nofun

/-! ## Outcomes -/

/-- One remark, the error itself. -/
def TellsOnly (c : Compilation) (issue : Issue) : Prop :=
  c.error = some issue ∧ c.diagnostics = [⟨.error, issue.message, issue.span, issue.hint⟩]

/-- The text has no tokens. -/
structure Unlexed (source : String) (c : Compilation) : Prop where
  undivided : ¬ ∃ ps, Piece.Splits source.toList ps
  tokens : c.tokens = []
  program : c.program = none
  told : ∃ issue, c.TellsOnly issue ∧ issue.category = .lexical

/-- The text has tokens, which make no program within so many frames. -/
structure Unparsed (frames : Nat) (source : String) (c : Compilation) : Prop where
  tokens : Token.Complete source c.tokens
  program : c.program = none
  told : ∃ halt, Program.ofTokens frames c.tokens = .error halt ∧ c.TellsOnly halt.issue ∧
    halt.issue.category = .grammatical

/-- The text has tokens, which make a program. -/
structure Compiled (frames : Nat) (graphs : Bool) (source : String) (c : Compilation) : Prop where
  tokens : Token.Complete source c.tokens
  error : c.error = none
  program : ∃ p, Program.ofTokens frames c.tokens = .ok p ∧ c.program = some p ∧
    c.diagnostics = (redefinitions p.functions).map redefinitionRemark ++
      if graphs then p.functions.map sizeRemark else []
  noError : ∀ d ∈ c.diagnostics, d.severity ≠ .error

theorem unlexed_failed {source : String} {e : LexError} {issue : Issue}
    (h : Token.ofSource source = .error e) (htold : e.told = .ok issue) :
    (failed [] issue).Unlexed source := by
  cases e with
  | oversizedNumber n => cases htold
  | unknownCharacter c span =>
    cases htold
    exact ⟨Token.undivided_of_unknown h, rfl, rfl, _, ⟨rfl, rfl⟩, rfl⟩

theorem unparsed_failed {frames : Nat} {source : String} {tokens : List Token} {halt : ParseHalt}
    (h : Token.ofSource source = .ok tokens) (hhalt : Program.ofTokens frames tokens = .error halt) :
    (failed tokens halt.issue).Unparsed frames source := by
  refine ⟨Token.complete_of_ofSource h, rfl, halt, hhalt, ⟨rfl, rfl⟩, ?_⟩
  cases halt with
  | wrong error => rfl
  | tooDeep => rfl

theorem compiled_succeeded {frames : Nat} {graphs : Bool} {source : String} {tokens : List Token}
    {p : Program} (h : Token.ofSource source = .ok tokens)
    (hp : Program.ofTokens frames tokens = .ok p) :
    (succeeded graphs tokens p).Compiled frames graphs source := by
  refine ⟨Token.complete_of_ofSource h, rfl, ⟨p, hp, rfl, diagnostics_succeeded graphs tokens p⟩, ?_⟩
  rw [diagnostics_succeeded]
  exact severity_of_remark

/-- Of the three outcomes no two come together. -/
theorem Unlexed.excludes {source : String} {c : Compilation} (h : c.Unlexed source) (frames : Nat)
    (graphs : Bool) : ¬ c.Unparsed frames source ∧ ¬ c.Compiled frames graphs source := by
  have hincomplete : ¬ Token.Complete source c.tokens := by
    rintro ⟨ps, hsplits, -⟩
    exact h.undivided ⟨ps, hsplits⟩
  exact ⟨fun hother => hincomplete hother.tokens, fun hother => hincomplete hother.tokens⟩

theorem Unparsed.not_compiled {frames : Nat} {graphs : Bool} {source : String} {c : Compilation}
    (h : c.Unparsed frames source) : ¬ c.Compiled frames graphs source := by
  intro hother
  obtain ⟨halt, -, ⟨herror, -⟩, -⟩ := h.told
  rw [hother.error] at herror
  cases herror

end Compilation

open Compilation in
/-- **What compiling a text comes to.**  Either lexing comes to an oversized number, and then the
    text is refused for it; or it does not, and then the text is compiled with exactly one of three
    outcomes: it has no tokens, its tokens make no program, or they make one. -/
theorem compile_outcomes (frames : Nat) (graphs : Bool) (source : String) :
    (∃ n, Compilation.ofSource frames graphs source = .error ⟨n⟩ ∧
      Token.MeetsOversized source.toList n) ∨
    ∃ c, Compilation.ofSource frames graphs source = .ok c ∧
      (∀ n, ¬ Token.MeetsOversized source.toList n) ∧
      ((c.Unlexed source ∧ ¬ c.Unparsed frames source ∧ ¬ c.Compiled frames graphs source) ∨
       (¬ c.Unlexed source ∧ c.Unparsed frames source ∧ ¬ c.Compiled frames graphs source) ∨
       (¬ c.Unlexed source ∧ ¬ c.Unparsed frames source ∧ c.Compiled frames graphs source)) := by
  have hmeets : ∀ n, Token.MeetsOversized source.toList n →
      Token.ofSource source = .error (.oversizedNumber n) := fun n => Token.ofSource_oversized_iff.mpr
  rw [Compilation.ofSource]
  cases hsource : Token.ofSource source with
  | error e =>
    cases e with
    | oversizedNumber n => exact .inl ⟨n, rfl, Token.ofSource_oversized_iff.mp hsource⟩
    | unknownCharacter c span =>
      have hunlexed := unlexed_failed hsource rfl
      refine .inr ⟨_, rfl, ?_, .inl ⟨hunlexed, hunlexed.excludes frames graphs⟩⟩
      intro n hn
      have hother := hmeets n hn
      rw [hsource] at hother
      cases hother
  | ok tokens =>
    have hnone : ∀ n, ¬ Token.MeetsOversized source.toList n := by
      intro n hn
      have hother := hmeets n hn
      rw [hsource] at hother
      cases hother
    right
    cases hprogram : Program.ofTokens frames tokens with
    | error halt =>
      have hunparsed := unparsed_failed hsource hprogram
      refine ⟨failed tokens halt.issue, by simp only [hprogram], hnone, .inr (.inl ⟨?_, hunparsed, ?_⟩)⟩
      · exact fun hother => (hother.excludes frames graphs).1 hunparsed
      · exact hunparsed.not_compiled
    | ok p =>
      have hcompiled : (succeeded graphs tokens p).Compiled frames graphs source :=
        compiled_succeeded hsource hprogram
      refine ⟨succeeded graphs tokens p, by simp only [hprogram], hnone, .inr (.inr ⟨?_, ?_, hcompiled⟩)⟩
      · exact fun hother => (hother.excludes frames graphs).2 hcompiled
      · exact fun hother => hother.not_compiled hcompiled

end MiniLang
