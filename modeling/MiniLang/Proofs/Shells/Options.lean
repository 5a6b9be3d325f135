/-
  What command lines of options and a file ask for.

  1. **Numbers** — an integer in decimal is read as itself, up to a number of digits
     (`integer?_of_decimal`), and looks like a value, also with a minus sign in front.
  2. **Flags** — an option as it is written, with or without an equals sign.  Each has its look
     (`classifyAll_flags`) and its effect on the settings (`interpret_flag`).
  3. **Command lines** — flags before a file and behind it ask for the graphs if one of them does and
     for the last budget (`ofArguments_of_flags`), unless a number in them is too long.
-/
import MiniLang.CommandLine
import MiniLang.Proofs.Running.Words

namespace MiniLang

/-! ## Numbers -/

namespace Text

theorem digitRow?_of_digits : ∀ {cs : List Char}, cs ≠ [] → (∀ c ∈ cs, isDigit c = true) →
    digitRow? cs = some cs := by
  intro cs
  fun_induction digitRow? cs with
  | case1 => exact fun hne => absurd rfl hne
  | case2 c hc => exact fun _ _ => rfl
  | case3 c hc => exact fun _ hdigits => absurd (hdigits c List.mem_cons_self) hc
  | case4 c rest hc ih =>
    intro _ hdigits
    exact absurd (hdigits '_' (by simp)) (by decide +kernel)
  | case5 c rest hc => exact fun _ hdigits => absurd (hdigits c List.mem_cons_self) hc
  | case6 c d rest hrest hc ih =>
    intro _ hdigits
    rw [ih (List.cons_ne_nil _ _) fun c hc => hdigits c (List.mem_cons_of_mem _ hc)]
    rfl
  | case7 c d rest hrest hc => exact fun _ hdigits => absurd (hdigits c List.mem_cons_self) hc

theorem natural?_of_digits {cs : List Char} (hne : cs ≠ []) (hdigits : ∀ c ∈ cs, isDigit c = true) :
    natural? cs = if cs.length ≤ Token.digitLimit then some (decimalValue cs) else none := by
  rw [natural?, digitRow?_of_digits hne hdigits]

theorem unpad_of_not_padding {cs : List Char} (h : ∀ c ∈ cs, isPadding c = false) :
    unpad cs = cs := by
  have hkept : ∀ {ds : List Char}, (∀ c ∈ ds, isPadding c = false) →
      ds.dropWhile isPadding = ds := by
    intro ds hds
    cases ds with
    | nil => rfl
    | cons d rest => rw [List.dropWhile_cons, hds d List.mem_cons_self, if_neg Bool.false_ne_true]
  rw [unpad, hkept h, hkept fun c hc => h c (List.mem_reverse.mp hc), List.reverse_reverse]

theorem not_padding_of_digit {c : Char} (h : isDigit c = true) : isPadding c = false := by
  rw [isPadding, not_blank_of_digit h, Bool.false_and]

/-- A decimal text as digits of any script, behind a minus sign or not. -/
theorem Decimal.digits {v : Int} {text : List Char} (h : Decimal v text) :
    ∃ digits, digits ≠ [] ∧ (∀ c ∈ digits, isDigit c = true) ∧ decimalValue digits = v.natAbs ∧
      text.countP Char.isDigit = digits.length ∧
      ((v < 0 ∧ text = '-' :: digits) ∨ (0 ≤ v ∧ text = digits)) := by
  obtain ⟨digits, htext, hne, hascii, -, hvalue⟩ := h
  have hcount : digits.countP Char.isDigit = digits.length := List.countP_eq_length.mpr hascii
  refine ⟨digits, hne, fun c hc => isDigit_of_ascii (hascii c hc), hvalue, ?_⟩
  by_cases hsign : v < 0
  · rw [if_pos hsign] at htext
    subst htext
    rw [List.countP_cons_of_neg (by decide), hcount]
    exact ⟨rfl, .inl ⟨hsign, rfl⟩⟩
  · rw [if_neg hsign] at htext
    subst htext
    exact ⟨hcount, .inr ⟨Int.not_lt.mp hsign, rfl⟩⟩

/-- An integer in decimal is read as itself, unless it has too many digits. -/
theorem integer?_of_decimal {v : Int} {s : String} (h : Decimal v s.toList) :
    integer? s = if s.toList.countP Char.isDigit ≤ Token.digitLimit then some v else none := by
  obtain ⟨digits, hne, hdigits, hvalue, hcount, ⟨hsign, htext⟩ | ⟨hsign, htext⟩⟩ := h.digits
  · have hunpad : unpad s.toList = '-' :: digits := by
      rw [htext]
      refine unpad_of_not_padding (List.forall_mem_cons.mpr ⟨by decide +kernel, ?_⟩)
      exact fun c hc => not_padding_of_digit (hdigits c hc)
    have hread : integer? s = (natural? digits).map fun n : Nat => -(n : Int) := by
      simp only [integer?, hunpad]
      cases natural? digits <;> rfl
    have hv : -(v.natAbs : Int) = v := by omega
    rw [hread, natural?_of_digits hne hdigits, hcount, hvalue, apply_ite (Option.map _)]
    simp only [Option.map_some, Option.map_none, hv]
  · have hunpad : unpad s.toList = digits := by
      rw [htext]
      exact unpad_of_not_padding fun c hc => not_padding_of_digit (hdigits c hc)
    have hread : integer? s = (natural? digits).map Int.ofNat := by
      rw [integer?, hunpad]
      split
      · exact absurd (hdigits '+' List.mem_cons_self) (by decide +kernel)
      · exact absurd (hdigits '-' List.mem_cons_self) (by decide +kernel)
      · rfl
    have hv : Int.ofNat v.natAbs = v := Int.natAbs_of_nonneg hsign
    rw [hread, natural?_of_digits hne hdigits, hcount, hvalue, apply_ite (Option.map _)]
    simp only [Option.map_some, Option.map_none, hv]

theorem repr_ne_dashes (n : Int) : n.repr ≠ "--" := by
  intro hrepr
  have hread := integer?_of_decimal (decimal_repr n)
  have hnone : integer? "--" = none := by decide
  rw [hrepr, hnone, if_pos (by decide)] at hread
  cases hread

end Text

namespace CommandLine

open Text (Decimal isDigit)

/-! ## Looks -/

namespace Argument

/-- What does not begin like an option is a value. -/
theorem classify_of_no_dash {text : String} (h : text.toList.head? ≠ some '-') :
    classify text = .ok (.value text) := by
  unfold classify
  split
  · next hdash =>
    rw [hdash] at h
    exact absurd rfl h
  · rfl

/-- A text with a character that no option has in its name is no such name. -/
theorem lookup_names_of_mem {text : String} {c : Char} (hmem : c ∈ text.toList)
    (hc : ∀ entry ∈ Switch.names, c ∉ entry.1.toList) : Switch.names.lookup text = none := by
  refine List.lookup_eq_none_iff.mpr fun entry hentry => ?_
  rw [bne_iff_ne]
  rintro rfl
  exact hc entry hentry hmem

theorem lookup_names_of_digit {text : String} {c : Char} (hmem : c ∈ text.toList)
    (hdigit : isDigit c = true) : Switch.names.lookup text = none := by
  have hnone : ∀ entry ∈ Switch.names, entry.1.toList.any isDigit = false := by decide +kernel
  refine lookup_names_of_mem hmem fun entry hentry hname => ?_
  exact List.any_eq_false.mp (hnone entry hentry) c hname hdigit

theorem splitEquals_of_notMem {cs : List Char} (h : '=' ∉ cs) : splitEquals cs = (cs, none) := by
  have hnone : cs.dropWhile (· ≠ '=') = [] := by
    rw [List.dropWhile_eq_nil_iff]
    intro c hc
    exact decide_eq_true fun heq => h (heq ▸ hc)
  rw [splitEquals, hnone]

theorem splitEquals_append {name value : List Char} (h : '=' ∉ name) :
    splitEquals (name ++ '=' :: value) = (name, some value) := by
  have hall : ∀ c ∈ name, decide (c ≠ '=') = true := fun c hc =>
    decide_eq_true fun heq => h (heq ▸ hc)
  rw [splitEquals, List.dropWhile_append_of_pos hall, List.takeWhile_append_of_pos hall]
  simp

theorem looksNumeric_of_digits {cs : List Char} (hne : cs ≠ [])
    (hdigits : ∀ c ∈ cs, isDigit c = true) : looksNumeric cs = true := by
  have hdrop : cs.dropWhile isDigit = [] := List.dropWhile_eq_nil_iff.mpr hdigits
  have htake : cs.takeWhile isDigit = cs := List.takeWhile_eq_self_iff.mpr hdigits
  simp only [looksNumeric, hdrop, htake, Bool.not_eq_true', List.isEmpty_eq_false_iff]
  exact hne

/-- An integer in decimal is a value, also behind a minus sign. -/
theorem classify_of_decimal {v : Int} {s : String} (h : Decimal v s.toList) :
    classify s = .ok (.value s) := by
  obtain ⟨digits, hne, hdigits, -, -, ⟨-, htext⟩ | ⟨-, htext⟩⟩ := h.digits
  · have hvalue : other s = .value s := by
      simp only [other, htext, looksNumeric_of_digits hne hdigits, Bool.true_or, if_true]
    obtain ⟨c, rest, rfl⟩ := List.exists_cons_of_ne_nil hne
    have hnot : ∀ d, isDigit d = false → d ∉ c :: rest := by
      intro d hd hmem
      rw [hdigits d hmem] at hd
      cases hd
    have hlookup : Switch.names.lookup s = none := by
      refine lookup_names_of_digit (c := c) ?_ (hdigits c List.mem_cons_self)
      rw [htext]
      simp
    have hequals : '=' ∉ '-' :: c :: rest := by
      rw [List.mem_cons, not_or]
      exact ⟨by decide, hnot '=' (by decide +kernel)⟩
    have hdash : c ≠ '-' := by
      rintro rfl
      exact hnot '-' (by decide +kernel) List.mem_cons_self
    have hh : c ≠ 'h' := by
      rintro rfl
      exact hnot 'h' (by decide +kernel) List.mem_cons_self
    simp only [classify, htext, hlookup, splitEquals_of_notMem hequals, if_neg hdash, if_neg hh,
      hvalue]
  · refine classify_of_no_dash ?_
    rw [htext]
    intro hhead
    exact absurd (hdigits '-' (List.mem_of_mem_head? hhead)) (by decide +kernel)

theorem classify_joined (value : String) :
    classify ("--max-steps=" ++ value) = .ok (.option .budget (some value)) := by
  have htext : ("--max-steps=" ++ value).toList =
      '-' :: '-' :: ("max-steps".toList ++ '=' :: value.toList) := by
    rw [String.toList_append]
    rfl
  have hlookup : Switch.names.lookup ("--max-steps=" ++ value) = none := by
    refine lookup_names_of_mem (c := '=') ?_ (by decide)
    rw [htext]
    simp
  have hsplit : splitEquals ('-' :: '-' :: ("max-steps".toList ++ '=' :: value.toList)) =
      ("--max-steps".toList, some value.toList) := by
    show splitEquals ("--max-steps".toList ++ '=' :: value.toList) = _
    exact splitEquals_append (by decide)
  have hname : Switch.names.lookup "--max-steps" = some .budget := by decide
  have hshort : "--max-steps".toList ≠ ['-', 'h'] := by decide
  simp only [classify, htext, hlookup, hsplit, hname, if_neg hshort, String.ofList_toList]

theorem classifyAll_cons {text : String} {argument : Argument} (hne : text ≠ "--")
    (h : classify text = .ok argument) (rest : List String) :
    classifyAll (text :: rest) = (classifyAll rest).map (argument :: ·) := by
  rw [classifyAll, if_neg hne, h]
  cases classifyAll rest <;> rfl

end Argument

/-! ## Flags -/

/-- An option as it is written; a budget stands behind an equals sign or is an argument of its own. -/
inductive Flag
  | graphs
  | budget (joined : Bool) (n : Int)
  deriving DecidableEq

namespace Flag

/-- The arguments that an option is written with. -/
def words : Flag → List String
  | graphs => ["--cfg"]
  | budget false n => ["--max-steps", n.repr]
  | budget true n => ["--max-steps=" ++ n.repr]

/-- How they look. -/
def looks : Flag → List Argument
  | graphs => [.option .graphs none]
  | budget false n => [.option .budget none, .value n.repr]
  | budget true n => [.option .budget (some n.repr)]

/-- The number in an option. -/
def number? : Flag → Option Int
  | graphs => none
  | budget _ n => some n

/-- There is no number in it with more digits than a number may have. -/
def Fits (flag : Flag) : Prop :=
  ∀ n ∈ flag.number?, n.repr.toList.countP Char.isDigit ≤ Token.digitLimit

instance (flag : Flag) : Decidable flag.Fits :=
  inferInstanceAs (Decidable (∀ n ∈ flag.number?, _))

/-- What an option sets. -/
def apply (settings : Settings) : Flag → Settings
  | graphs => { settings with graphs := true }
  | budget _ n => { settings with budget := .steps n }

end Flag

namespace Argument

theorem classifyAll_flag (flag : Flag) (rest : List String) :
    classifyAll (flag.words ++ rest) = (classifyAll rest).map (flag.looks ++ ·) := by
  have hnumber : ∀ n : Int, classify n.repr = .ok (.value n.repr) := fun n =>
    classify_of_decimal (Text.decimal_repr n)
  cases flag with
  | graphs => exact classifyAll_cons (by decide) (by decide) rest
  | budget joined n =>
    cases joined with
    | false =>
      have hname : classify "--max-steps" = .ok (.option .budget none) := by decide
      have hfirst := classifyAll_cons (by decide) hname (n.repr :: rest)
      rw [classifyAll_cons (Text.repr_ne_dashes n) (hnumber n) rest] at hfirst
      refine hfirst.trans ?_
      cases classifyAll rest <;> rfl
    | true =>
      refine classifyAll_cons ?_ (classify_joined n.repr) rest
      intro hjoined
      have hmem : '=' ∈ ("--max-steps=" ++ n.repr).toList := by
        rw [String.toList_append]
        exact List.mem_append_left _ (by decide)
      rw [hjoined] at hmem
      exact absurd hmem (by decide)

theorem classifyAll_flags (flags : List Flag) (rest : List String) :
    classifyAll (flags.flatMap Flag.words ++ rest) =
      (classifyAll rest).map (flags.flatMap Flag.looks ++ ·) := by
  induction flags with
  | nil =>
    show classifyAll rest = (classifyAll rest).map _
    cases classifyAll rest <;> rfl
  | cons flag flags ih =>
    rw [List.flatMap_cons, List.append_assoc, classifyAll_flag, ih, List.flatMap_cons]
    cases classifyAll rest with
    | error e => rfl
    | ok arguments => exact congrArg Except.ok (List.append_assoc _ _ _).symm

end Argument

namespace Request

theorem budgetOf?_repr (n : Int) :
    budgetOf? n.repr =
      if n.repr.toList.countP Char.isDigit ≤ Token.digitLimit then some (.steps n) else none := by
  rw [budgetOf?, if_neg (Text.repr_ne_dashes n), Text.integer?_of_decimal (Text.decimal_repr n),
    apply_ite (Option.map _)]
  rfl

/-- A flag is taken, whatever is still to come. -/
theorem interpret_flag {flag : Flag} (hfits : flag.Fits) (settings : Settings) (awaiting : Bool)
    (extras : List String) (rest : List Argument) :
    interpret settings awaiting extras (flag.looks ++ rest) =
      interpret (flag.apply settings) awaiting extras rest := by
  cases flag with
  | graphs => rfl
  | budget joined n =>
    have hread : budgetOf? n.repr = some (.steps n) := by
      rw [budgetOf?_repr, if_pos (hfits n rfl)]
    cases joined with
    | false => simp only [Flag.looks, List.cons_append, List.nil_append, interpret, hread, Flag.apply]
    | true => simp only [Flag.looks, List.cons_append, List.nil_append, interpret, hread, Flag.apply]

/-- A flag with a number that is too long is told, whatever is still to come. -/
theorem interpret_unfit {flag : Flag} (h : ¬ flag.Fits) (settings : Settings) (awaiting : Bool)
    (extras : List String) (rest : List Argument) :
    ∃ n ∈ flag.number?, interpret settings awaiting extras (flag.looks ++ rest) =
      .error (.notAnInteger .budget n.repr) := by
  cases flag with
  | graphs => exact absurd nofun h
  | budget joined n =>
    refine ⟨n, rfl, ?_⟩
    have hlong : ¬ n.repr.toList.countP Char.isDigit ≤ Token.digitLimit := fun hn =>
      h fun n' hn' => Option.some.inj hn' ▸ hn
    have hread : budgetOf? n.repr = none := by rw [budgetOf?_repr, if_neg hlong]
    cases joined <;> simp only [Flag.looks, List.cons_append, List.nil_append, interpret, hread]

/-- Flags are taken one by one, as far as their numbers can be read. -/
theorem interpret_flags {flags : List Flag} (hfits : ∀ flag ∈ flags, flag.Fits)
    (settings : Settings) (awaiting : Bool) (extras : List String) (rest : List Argument) :
    interpret settings awaiting extras (flags.flatMap Flag.looks ++ rest) =
      interpret (flags.foldl Flag.apply settings) awaiting extras rest := by
  induction flags generalizing settings with
  | nil => rfl
  | cons flag flags ih =>
    obtain ⟨hflag, hflags⟩ := List.forall_mem_cons.mp hfits
    rw [List.flatMap_cons, List.append_assoc, interpret_flag hflag, ih hflags]
    rfl

/-- The first number that is too long is told. -/
theorem interpret_unfit_flags {flags : List Flag} (h : ∃ flag ∈ flags, ¬ flag.Fits)
    (settings : Settings) (awaiting : Bool) (extras : List String) (rest : List Argument) :
    ∃ flag ∈ flags, ¬ flag.Fits ∧ ∃ n ∈ flag.number?,
      interpret settings awaiting extras (flags.flatMap Flag.looks ++ rest) =
        .error (.notAnInteger .budget n.repr) := by
  induction flags generalizing settings with
  | nil =>
    obtain ⟨flag, hmem, -⟩ := h
    cases hmem
  | cons flag flags ih =>
    rw [List.flatMap_cons, List.append_assoc]
    by_cases hflag : flag.Fits
    · obtain ⟨other, hother, hunfit⟩ := h
      have hrest : ∃ flag ∈ flags, ¬ flag.Fits := by
        rcases List.mem_cons.mp hother with rfl | hmem
        · exact absurd hflag hunfit
        · exact ⟨other, hmem, hunfit⟩
      obtain ⟨told, htold, hlong, n, hn, hread⟩ := ih hrest (flag.apply settings)
      refine ⟨told, List.mem_cons_of_mem _ htold, hlong, n, hn, ?_⟩
      rw [interpret_flag hflag, hread]
    · obtain ⟨n, hn, hread⟩ := interpret_unfit hflag settings awaiting extras _
      exact ⟨flag, List.mem_cons_self, hflag, n, hn, hread⟩

/-- A file is taken where one is still to come, in front of any flags. -/
theorem interpret_value (settings : Settings) (extras : List String) (path : String)
    (flags : List Flag) :
    interpret settings true extras (.value path :: flags.flatMap Flag.looks) =
      interpret { settings with source := some path } false extras (flags.flatMap Flag.looks) := by
  cases flags with
  | nil => rfl
  | cons flag flags =>
    cases flag with
    | graphs => rfl
    | budget joined n => cases joined <;> rfl

end Request

/-! ## Command lines -/

/-- The command line of a file with some flags before it and some behind it.  The file is taken for
    one if its name has the look of a value (`Argument.classify_of_no_dash`). -/
def commandLine (before : List Flag) (path : String) (behind : List Flag) : List String :=
  before.flatMap Flag.words ++ path :: behind.flatMap Flag.words

/-- The last number in some flags. -/
def lastNumber? (flags : List Flag) : Option Int := (flags.filterMap Flag.number?).getLast?

/-- The budget of so many steps, or none. -/
def Budget.ofLimit : Option Int → Budget
  | none => .unlimited
  | some n => .steps n

theorem Budget.limit_ofLimit (limit : Option Int) : (ofLimit limit).limit = limit := by
  cases limit <;> rfl

/-- What flags set: the graphs if one of them does so, and the last budget. -/
theorem foldl_apply (flags : List Flag) (settings : Settings) :
    flags.foldl Flag.apply settings =
      { settings with
        graphs := settings.graphs || flags.contains .graphs
        budget := ((lastNumber? flags).map .steps).getD settings.budget } := by
  induction flags generalizing settings with
  | nil => simp [lastNumber?]
  | cons flag flags ih =>
    rw [List.foldl_cons, ih]
    cases flag with
    | graphs => simp [Flag.apply, lastNumber?, Flag.number?]
    | budget joined n =>
      cases hlast : (flags.filterMap Flag.number?).getLast? <;>
        simp [Flag.apply, lastNumber?, Flag.number?, List.getLast?_cons, hlast]

section

variable {before behind : List Flag} {path : String}

theorem classifyAll_commandLine (hpath : Argument.classify path = .ok (.value path)) :
    Argument.classifyAll (commandLine before path behind) =
      .ok (before.flatMap Flag.looks ++ .value path :: behind.flatMap Flag.looks) := by
  have hdashes : path ≠ "--" := by
    rintro rfl
    exact absurd hpath (by decide)
  have hbehind : Argument.classifyAll (behind.flatMap Flag.words) =
      .ok (behind.flatMap Flag.looks) := by
    have hall := Argument.classifyAll_flags behind []
    rwa [List.append_nil, Argument.classifyAll, Except.map, List.append_nil] at hall
  rw [commandLine, Argument.classifyAll_flags,
    Argument.classifyAll_cons hdashes hpath, hbehind]
  rfl

/-- A command line is interpreted flag by flag, with the file in between. -/
theorem ofArguments_eq (hpath : Argument.classify path = .ok (.value path)) :
    Request.ofArguments (commandLine before path behind) =
      Request.interpret ⟨none, false, .unlimited, false⟩ true []
        (before.flatMap Flag.looks ++ .value path :: behind.flatMap Flag.looks) := by
  rw [Request.ofArguments, classifyAll_commandLine hpath]

/-- It asks for a run of the file, with the graphs if one of the flags does, and with the last
    budget. -/
theorem ofArguments_of_flags (hpath : Argument.classify path = .ok (.value path))
    (hfits : ∀ flag ∈ before ++ behind, flag.Fits) :
    Request.ofArguments (commandLine before path behind) =
      .ok (.run ⟨some path, (before ++ behind).contains .graphs,
        .ofLimit (lastNumber? (before ++ behind)), false⟩) := by
  obtain ⟨hbefore, hbehind⟩ := List.forall_mem_append.mp hfits
  have hend : ∀ settings, Request.interpret settings false [] (behind.flatMap Flag.looks) =
      .ok (.run (behind.foldl Flag.apply settings)) := by
    intro settings
    have hall := Request.interpret_flags hbehind settings false [] []
    rwa [List.append_nil, Request.interpret, if_pos rfl] at hall
  rw [ofArguments_eq hpath, Request.interpret_flags hbefore, Request.interpret_value, hend,
    foldl_apply, foldl_apply]
  have hlast : lastNumber? (before ++ behind) = (lastNumber? behind).or (lastNumber? before) := by
    rw [lastNumber?, List.filterMap_append, List.getLast?_append]
    rfl
  rw [hlast, List.contains_append, Bool.false_or]
  cases lastNumber? behind <;> cases lastNumber? before <;> rfl

/-- With numbers that are too long, one of them is all that is told. -/
theorem ofArguments_of_unfit (hpath : Argument.classify path = .ok (.value path))
    (h : ∃ flag ∈ before ++ behind, ¬ flag.Fits) :
    ∃ flag ∈ before ++ behind, ¬ flag.Fits ∧ ∃ n ∈ flag.number?,
      Request.ofArguments (commandLine before path behind) =
        .error (.notAnInteger .budget n.repr) := by
  rw [ofArguments_eq hpath]
  by_cases hbefore : ∃ flag ∈ before, ¬ flag.Fits
  · obtain ⟨told, htold, hlong, n, hn, hread⟩ := Request.interpret_unfit_flags hbefore _ true [] _
    exact ⟨told, List.mem_append_left _ htold, hlong, n, hn, hread⟩
  · have hall : ∀ flag ∈ before, flag.Fits := fun flag hflag =>
      Classical.not_not.mp fun hunfit => hbefore ⟨flag, hflag, hunfit⟩
    have hbehind : ∃ flag ∈ behind, ¬ flag.Fits := by
      obtain ⟨flag, hflag, hunfit⟩ := h
      rcases List.mem_append.mp hflag with hmem | hmem
      · exact absurd (hall flag hmem) hunfit
      · exact ⟨flag, hmem, hunfit⟩
    rw [Request.interpret_flags hall, Request.interpret_value]
    obtain ⟨told, htold, hlong, n, hn, hread⟩ := Request.interpret_unfit_flags hbehind
      { before.foldl Flag.apply ⟨none, false, .unlimited, false⟩ with source := some path } false [] []
    rw [List.append_nil] at hread
    exact ⟨told, List.mem_append_right _ htold, hlong, n, hn, hread⟩

end

end CommandLine

end MiniLang
