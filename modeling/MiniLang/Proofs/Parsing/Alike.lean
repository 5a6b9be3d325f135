/-
  The grammar does not look at places.

  Two lists of tokens are alike if they differ in their spans only.  Whatever a phrase stands for, a
  phrase alike stands for the same tree: the grammar reads kinds, names and values, and the trees
  have no places.

  A phrase that is made of parts falls apart in the same way as the one it is like; the first
  section says so for each way of putting parts together.
-/
import MiniLang.Proofs.Grammar

namespace MiniLang

open Parse (Level Item)

/-- The same tokens up to their places. -/
def Token.Alike (ts us : List Token) : Prop := ts.map Token.bare = us.map Token.bare

namespace Token.Alike

/-! ## Parts -/

variable {t : Token} {ts us vs : List Token}

theorem refl (ts : List Token) : Alike ts ts := rfl

theorem symm : Alike ts us → Alike us ts := Eq.symm

theorem nil_left : Alike [] us → us = [] := by
  intro h
  exact List.map_eq_nil_iff.mp h.symm

theorem cons_left : Alike (t :: ts) us →
    ∃ u us', us = u :: us' ∧ u.bare = t.bare ∧ Alike ts us' := by
  intro h
  obtain ⟨u, us', rfl, hu, hus⟩ := List.map_eq_cons_iff.mp h.symm
  exact ⟨u, us', rfl, hu, hus.symm⟩

theorem append_left : Alike (ts ++ vs) us →
    ∃ us₁ us₂, us = us₁ ++ us₂ ∧ Alike ts us₁ ∧ Alike vs us₂ := by
  intro h
  rw [Alike, List.map_append] at h
  obtain ⟨us₁, us₂, rfl, h₁, h₂⟩ := List.map_eq_append_iff.mp h.symm
  exact ⟨us₁, us₂, rfl, h₁.symm, h₂.symm⟩

theorem append {ts' us' : List Token} : Alike ts us → Alike ts' us' →
    Alike (ts ++ ts') (us ++ us') := by
  intro h h'
  rw [Alike, List.map_append, List.map_append, h, h']

/-- A single token. -/
theorem singleton_left : Alike [t] us → ∃ u, us = [u] ∧ u.bare = t.bare := by
  intro h
  obtain ⟨u, us', rfl, hu, hus⟩ := cons_left h
  rw [nil_left hus]
  exact ⟨u, rfl, hu⟩

end Token.Alike

/-- What is alike but for its place is of the same kind. -/
theorem Token.kind_of_bare {t u : Token} : u.bare = t.bare → u.kind = t.kind := by
  intro h
  rw [← Token.bare_kind u, h, Token.bare_kind]

theorem Token.lexeme_of_bare {t u : Token} : u.bare = t.bare → u.lexeme = t.lexeme := by
  intro h
  rw [← Token.bare_lexeme u, h, Token.bare_lexeme]

theorem Token.value_of_bare {t u : Token} : u.bare = t.bare → u.value = t.value := by
  intro h
  rw [← Token.bare_value u, h, Token.bare_value]

namespace Grammar

open Token (Alike)

/-- A sort of phrases that does not look at places. -/
def Unplaced {β : Type} (P : List Token → β → Prop) (ts : List Token) (b : β) : Prop :=
  ∀ us, Alike ts us → P us b

section Parts

variable {β : Type} {P : List Token → β → Prop}

/-- A row with commas falls apart like the row it is like. -/
theorem AfterCommas.alike : ∀ {parts : List (List Token × β)} {ts us : List Token},
    AfterCommas (parts.map (·.1)) ts → Alike ts us → (∀ a ∈ parts, Unplaced P a.1 a.2) →
    ∃ parts' : List (List Token × β), AfterCommas (parts'.map (·.1)) us ∧
      parts'.map (·.2) = parts.map (·.2) ∧ ∀ a ∈ parts', P a.1 a.2 := by
  intro parts
  induction parts with
  | nil =>
    intro ts us h halike _
    cases h
    rw [halike.nil_left]
    exact ⟨[], .nil, rfl, nofun⟩
  | cons part parts ih =>
    intro ts us h halike hparts
    obtain ⟨hpart, hrest⟩ := List.forall_mem_cons.mp hparts
    rw [List.map_cons] at h
    cases h with
    | @cons comma p ps ts hcomma hts =>
      obtain ⟨u, us, rfl, hu, halike⟩ := halike.cons_left
      obtain ⟨us₁, us₂, rfl, h₁, h₂⟩ := halike.append_left
      obtain ⟨parts', hsep, hvalues, hall⟩ := ih hts h₂ hrest
      refine ⟨(us₁, part.2) :: parts', .cons ?_ hsep, ?_, ?_⟩
      · rw [Token.kind_of_bare hu]
        exact hcomma
      · rw [List.map_cons, List.map_cons, hvalues]
      · exact List.forall_mem_cons.mpr ⟨hpart us₁ h₁, hall⟩

theorem Separated.alike {parts : List (List Token × β)} {ts us : List Token} :
    Separated (parts.map (·.1)) ts → Alike ts us → (∀ a ∈ parts, Unplaced P a.1 a.2) →
    ∃ parts' : List (List Token × β), Separated (parts'.map (·.1)) us ∧
      parts'.map (·.2) = parts.map (·.2) ∧ ∀ a ∈ parts', P a.1 a.2 := by
  intro h halike hparts
  cases parts with
  | nil =>
    cases h
    rw [halike.nil_left]
    exact ⟨[], .nil, rfl, nofun⟩
  | cons part parts =>
    obtain ⟨hpart, hrest⟩ := List.forall_mem_cons.mp hparts
    rw [List.map_cons] at h
    cases h with
    | cons hts =>
      obtain ⟨us₁, us₂, rfl, h₁, h₂⟩ := halike.append_left
      obtain ⟨parts', hsep, hvalues, hall⟩ := hts.alike h₂ hrest
      refine ⟨(us₁, part.2) :: parts', .cons hsep, ?_, ?_⟩
      · rw [List.map_cons, List.map_cons, hvalues]
      · exact List.forall_mem_cons.mpr ⟨hpart us₁ h₁, hall⟩

/-- So does a row without anything between its parts. -/
theorem flatten_alike : ∀ {parts : List (List Token × β)} {us : List Token},
    Alike (parts.map (·.1)).flatten us → (∀ a ∈ parts, Unplaced P a.1 a.2) →
    ∃ parts' : List (List Token × β), us = (parts'.map (·.1)).flatten ∧
      parts'.map (·.2) = parts.map (·.2) ∧ ∀ a ∈ parts', P a.1 a.2 := by
  intro parts
  induction parts with
  | nil =>
    intro us halike _
    rw [halike.nil_left]
    exact ⟨[], rfl, rfl, nofun⟩
  | cons part parts ih =>
    intro us halike hparts
    obtain ⟨hpart, hrest⟩ := List.forall_mem_cons.mp hparts
    obtain ⟨us₁, us₂, rfl, h₁, h₂⟩ := Alike.append_left halike
    obtain ⟨parts', rfl, hvalues, hall⟩ := ih h₂ hrest
    refine ⟨(us₁, part.2) :: parts', rfl, ?_, ?_⟩
    · rw [List.map_cons, List.map_cons, hvalues]
    · exact List.forall_mem_cons.mpr ⟨hpart us₁ h₁, hall⟩

/-- A phrase in parentheses. -/
theorem Parentheses.alike {l r : Token} {ts us : List Token} : Parentheses l r →
    Alike (l :: ts ++ [r]) us →
    ∃ l' r' us', us = l' :: us' ++ [r'] ∧ Parentheses l' r' ∧ Alike ts us' := by
  rintro ⟨hl, hr⟩ halike
  obtain ⟨l', us, rfl, hl', halike⟩ := halike.cons_left
  obtain ⟨us', us, rfl, hts, halike⟩ := Alike.append_left halike
  obtain ⟨r', rfl, hr'⟩ := halike.singleton_left
  refine ⟨l', r', us', rfl, ⟨?_, ?_⟩, hts⟩
  · rw [Token.kind_of_bare hl', hl]
  · rw [Token.kind_of_bare hr', hr]

end Parts

/-! ## Phrases -/

/-- By induction on how the phrase is made. -/
theorem Expression.alike {o : Option Level} {ts : List Token} {e : Expr} :
    Expression o ts e → Unplaced (Expression o) ts e := by
  intro h
  induction h with
  | number ht =>
    intro us halike
    obtain ⟨u, rfl, hu⟩ := halike.singleton_left
    rw [← Token.value_of_bare hu]
    exact .number (by rw [Token.kind_of_bare hu, ht])
  | name ht =>
    intro us halike
    obtain ⟨u, rfl, hu⟩ := halike.singleton_left
    rw [← Token.lexeme_of_bare hu]
    exact .name (by rw [Token.kind_of_bare hu, ht])
  | call ht hp hsep _ ih =>
    intro us halike
    obtain ⟨u, us, rfl, hu, halike⟩ := halike.cons_left
    obtain ⟨l', r', us, rfl, hp', halike⟩ := hp.alike halike
    obtain ⟨args', hsep', hvalues, hargs⟩ := hsep.alike halike ih
    rw [← Token.lexeme_of_bare hu, ← hvalues]
    exact .call (by rw [Token.kind_of_bare hu]; exact ht) hp' hsep' hargs
  | parens hp _ ih =>
    intro us halike
    obtain ⟨l', r', us, rfl, hp', halike⟩ := hp.alike halike
    exact .parens hp' (ih us halike)
  | minus ht _ ih =>
    intro us halike
    obtain ⟨u, us, rfl, hu, halike⟩ := halike.cons_left
    exact .minus (by rw [Token.kind_of_bare hu, ht]) (ih us halike)
  | operand _ ih =>
    intro us halike
    exact .operand (ih us halike)
  | binary _ hop _ iha ihb =>
    intro us halike
    obtain ⟨us₁, us, rfl, h₁, halike⟩ := halike.append_left
    obtain ⟨op', us₂, rfl, hop', h₂⟩ := halike.cons_left
    have hkind := Token.kind_of_bare hop'
    rw [← hkind] at hop ⊢
    exact .binary (iha us₁ h₁) hop (ihb us₂ h₂)

theorem Call.alike {ts : List Token} {e : Expr} : Call ts e → Unplaced Call ts e := by
  rintro ⟨ht, hp, hsep, hargs⟩ us halike
  obtain ⟨u, us, rfl, hu, halike⟩ := halike.cons_left
  obtain ⟨l', r', us, rfl, hp', halike⟩ := hp.alike halike
  obtain ⟨args', hsep', hvalues, hargs'⟩ :=
    hsep.alike halike fun a ha => (hargs a ha).alike
  rw [← Token.lexeme_of_bare hu, ← hvalues]
  exact .mk (by rw [Token.kind_of_bare hu]; exact ht) hp' hsep' hargs'

theorem Head.alike {keyword : Token.Kind} {ts : List Token} {c : Expr} : Head keyword ts c →
    Unplaced (Head keyword) ts c := by
  rintro ⟨hk, hp, hc⟩ us halike
  obtain ⟨k', us, rfl, hk', halike⟩ := halike.cons_left
  obtain ⟨l', r', us, rfl, hp', halike⟩ := hp.alike halike
  exact .mk (by rw [Token.kind_of_bare hk', hk]) hp' (hc.alike us halike)

/-- Whether tokens are reserved is a matter of their kinds. -/
theorem Reserved.alike {ts us : List Token} : Reserved us → Alike ts us → Reserved ts := by
  intro h halike
  cases ts with
  | nil =>
    rw [halike.nil_left] at h
    exact h
  | cons t ts =>
    obtain ⟨u, us, rfl, hu, halike⟩ := halike.cons_left
    cases ts with
    | nil =>
      rw [halike.nil_left] at h
      rw [Reserved, ← Token.kind_of_bare hu]
      exact h
    | cons t' ts =>
      obtain ⟨u', us, rfl, hu', halike⟩ := halike.cons_left
      rw [Reserved, ← Token.kind_of_bare hu, ← Token.kind_of_bare hu']
      exact h

theorem Statement.alike {ts : List Token} {s : Stmt} : Statement ts s →
    Unplaced Statement ts s := by
  intro h
  induction h with
  | retNone hk hs =>
    intro us halike
    obtain ⟨k', us, rfl, hk', halike⟩ := halike.cons_left
    obtain ⟨s', rfl, hs'⟩ := halike.singleton_left
    exact .retNone (by rw [Token.kind_of_bare hk', hk]) (by rw [Token.kind_of_bare hs', hs])
  | ret hk he hs =>
    intro us halike
    obtain ⟨k', us, rfl, hk', halike⟩ := halike.cons_left
    obtain ⟨us, vs, rfl, hts, halike⟩ := Alike.append_left halike
    obtain ⟨s', rfl, hs'⟩ := halike.singleton_left
    exact .ret (by rw [Token.kind_of_bare hk', hk]) (he.alike us hts)
      (by rw [Token.kind_of_bare hs', hs])
  | ifThen hhead _ ih =>
    intro us halike
    obtain ⟨us₁, us₂, rfl, h₁, h₂⟩ := halike.append_left
    exact .ifThen (hhead.alike us₁ h₁) (ih us₂ h₂)
  | ifElse hhead _ hdangles hk _ ihyes ihno =>
    intro us halike
    obtain ⟨us, vs, rfl, hthen, helse⟩ := halike.append_left
    obtain ⟨us₁, us₂, rfl, h₁, h₂⟩ := hthen.append_left
    obtain ⟨k', vs, rfl, hk', h₃⟩ := helse.cons_left
    exact .ifElse (hhead.alike us₁ h₁) (ihyes us₂ h₂) hdangles
      (by rw [Token.kind_of_bare hk', hk]) (ihno vs h₃)
  | loop hhead _ ih =>
    intro us halike
    obtain ⟨us₁, us₂, rfl, h₁, h₂⟩ := halike.append_left
    exact .loop (hhead.alike us₁ h₁) (ih us₂ h₂)
  | block hl hr _ ih =>
    intro us halike
    obtain ⟨l', us, rfl, hl', halike⟩ := halike.cons_left
    obtain ⟨us, vs, rfl, hbody, halike⟩ := Alike.append_left halike
    obtain ⟨r', rfl, hr'⟩ := halike.singleton_left
    obtain ⟨body', rfl, hvalues, hall⟩ := flatten_alike hbody ih
    rw [← hvalues]
    exact .block (by rw [Token.kind_of_bare hl', hl]) (by rw [Token.kind_of_bare hr', hr]) hall
  | call hcall hs =>
    intro us halike
    obtain ⟨us, vs, rfl, hts, halike⟩ := halike.append_left
    obtain ⟨s', rfl, hs'⟩ := halike.singleton_left
    exact .call (hcall.alike us hts) (by rw [Token.kind_of_bare hs', hs])
  | assign ht heq he hs =>
    intro us halike
    obtain ⟨u, us, rfl, hu, halike⟩ := halike.cons_left
    obtain ⟨eq', us, rfl, heq', halike⟩ := Alike.cons_left halike
    obtain ⟨us, vs, rfl, hts, halike⟩ := Alike.append_left halike
    obtain ⟨s', rfl, hs'⟩ := halike.singleton_left
    rw [← Token.lexeme_of_bare hu]
    exact .assign (by rw [Token.kind_of_bare hu, ht]) (by rw [Token.kind_of_bare heq', heq])
      (he.alike us hts) (by rw [Token.kind_of_bare hs', hs])
  | expr he hs hreserved =>
    intro us halike
    -- asked of the whole phrase, before it falls apart
    have hnot : ¬ Reserved us := fun h => hreserved (h.alike halike)
    obtain ⟨us, vs, rfl, hts, halike⟩ := halike.append_left
    obtain ⟨s', rfl, hs'⟩ := halike.singleton_left
    exact .expr (he.alike us hts) (by rw [Token.kind_of_bare hs', hs]) hnot

/-- A single name. -/
def Name (ts : List Token) (name : String) : Prop :=
  ∃ t : Token, ts = [t] ∧ t.kind = .name ∧ t.lexeme = name

theorem Name.alike {ts : List Token} {name : String} : Name ts name → Unplaced Name ts name := by
  rintro ⟨t, rfl, ht, rfl⟩ us halike
  obtain ⟨u, rfl, hu⟩ := halike.singleton_left
  exact ⟨u, rfl, by rw [Token.kind_of_bare hu, ht], Token.lexeme_of_bare hu⟩

/-- A row of single names is a row of tokens. -/
theorem exists_names : ∀ {parts : List (List Token × String)}, (∀ a ∈ parts, Name a.1 a.2) →
    ∃ params : List Token, parts.map (·.1) = params.map ([·]) ∧
      params.map (·.lexeme) = parts.map (·.2) ∧ ∀ p ∈ params, p.kind = .name := by
  intro parts
  induction parts with
  | nil =>
    intro _
    exact ⟨[], rfl, rfl, nofun⟩
  | cons part parts ih =>
    intro h
    obtain ⟨⟨t, ht, hkind, hlexeme⟩, hrest⟩ := List.forall_mem_cons.mp h
    obtain ⟨params, hparams, hlexemes, hkinds⟩ := ih hrest
    refine ⟨t :: params, ?_, ?_, List.forall_mem_cons.mpr ⟨hkind, hkinds⟩⟩
    · rw [List.map_cons, List.map_cons, ht, hparams]
    · rw [List.map_cons, List.map_cons, hlexeme, hlexemes]

theorem Definition.alike {ts : List Token} {f : FunctionDef} : Definition ts f →
    Unplaced Definition ts f := by
  intro h us halike
  obtain @⟨k, name, l, r, row, span, body, vs, params, hk, hname, hp, hparams, hsep, hbody⟩ := h
  obtain ⟨k', us, rfl, hk', halike⟩ := Alike.cons_left halike
  obtain ⟨name', us, rfl, hname', halike⟩ := Alike.cons_left halike
  obtain ⟨l', us, rfl, hl', halike⟩ := Alike.cons_left halike
  obtain ⟨us₁, us, rfl, hrow, halike⟩ := Alike.append_left halike
  obtain ⟨r', us₂, rfl, hr', hvs⟩ := halike.cons_left
  have hp' : Parentheses l' r' := by
    rw [Parentheses, Token.kind_of_bare hl', Token.kind_of_bare hr']
    exact hp
  have hnames : ∀ a ∈ params.map fun p => ([p], p.lexeme), Unplaced Name a.1 a.2 := by
    intro a ha
    obtain ⟨p, hp, rfl⟩ := List.mem_map.mp ha
    exact Name.alike ⟨p, rfl, hparams p hp, rfl⟩
  have hsep' : Separated ((params.map fun p => ([p], p.lexeme)).map (·.1)) row := by
    rw [List.map_map]
    exact hsep
  obtain ⟨parts, hsep', hvalues, hall⟩ := hsep'.alike hrow hnames
  obtain ⟨params', hparts, hlexemes, hkinds⟩ := exists_names hall
  rw [hparts] at hsep'
  rw [hvalues, List.map_map] at hlexemes
  rw [← Token.lexeme_of_bare hname']
  show Definition _ ⟨.nowhere, name'.lexeme, params.map (Prod.snd ∘ fun p => ([p], p.lexeme)), _⟩
  rw [← hlexemes]
  exact .mk (by rw [Token.kind_of_bare hk', hk]) (by rw [Token.kind_of_bare hname', hname]) hp'
    hkinds hsep' (hbody.alike us₂ hvs)

theorem Top.alike {ts : List Token} {i : Item} : Top ts i → Unplaced Top ts i := by
  intro h us halike
  cases h with
  | definition hf => exact .definition (hf.alike us halike)
  | statement hs => exact .statement (hs.alike us halike)

theorem Program.alike {ts : List Token} {p : MiniLang.Program} : Program ts p →
    Unplaced Program ts p := by
  rintro ⟨hitems, hstop⟩ us halike
  obtain ⟨us, vs, rfl, hus, halike⟩ := halike.append_left
  obtain ⟨stop', rfl, hstop'⟩ := halike.singleton_left
  obtain ⟨items', rfl, hvalues, hall⟩ := flatten_alike hus fun i hi => (hitems i hi).alike
  rw [← hvalues]
  exact .mk hall (by rw [Token.kind_of_bare hstop', hstop])

end Grammar

end MiniLang
