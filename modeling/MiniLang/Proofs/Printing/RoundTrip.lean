/-
  Reading undoes printing.

  A program that was read from some source is printed as a text that is read as the same program
  again, up to places: the tree meets the invariant of parsed trees, so its printed tokens are a
  phrase for it; the text is lexed as these tokens; and the parser finds what a phrase stands for.
-/
import Mathlib
import MiniLang.Proofs.Printing.Derivation

namespace MiniLang

/-- What is parsed from a source meets the invariant of parsed trees. -/
theorem parsed_of_ofTokens {source : String} {frames : Nat} {tokens : List Token} {p : Program} :
    Token.ofSource source = .ok tokens → Program.ofTokens frames tokens = .ok p → p.Parsed := by
  intro hsource hp
  obtain ⟨ts, stop, rfl, hts⟩ := Token.fromSource_of_ofSource hsource
  have hprogram := program_of_ofTokens (Token.endsOnce_of_fromSource hts) hp
  exact (hprogram.parsed hts).of_bare

/-- The text of a parsed program is lexed and parsed as that program. -/
theorem ofTokens_of_parsed {p : Program} : p.Parsed →
    ∃ tokens, Token.ofSource p.text = .ok tokens ∧
      ∀ frames, Program.frames tokens ≤ frames →
        ∃ q, Program.ofTokens frames tokens = .ok q ∧ q.bare = p.bare := by
  intro h
  obtain ⟨us, stop, hus, halike⟩ := Token.ofSource_intercalate (Token.readables_program h)
  refine ⟨us ++ [Token.endAt stop], hus, ?_⟩
  intro frames hframes
  have hprinted : Grammar.Program (p.tokens ++ [.endAt stop]) p.bare :=
    Grammar.program_printed h rfl
  have hread : Grammar.Program (us ++ [.endAt stop]) p.bare :=
    hprinted.alike _ (halike.append (.refl _))
  exact ofTokens_of_program hread hframes

/-- Reading undoes printing, for every program that was read from a source. -/
theorem ofTokens_text {source : String} {frames : Nat} {tokens : List Token} {p : Program} :
    Token.ofSource source = .ok tokens → Program.ofTokens frames tokens = .ok p →
    ∃ tokens', Token.ofSource p.text = .ok tokens' ∧
      ∀ frames', Program.frames tokens' ≤ frames' →
        ∃ q, Program.ofTokens frames' tokens' = .ok q ∧ q.bare = p.bare := by
  intro hsource hp
  exact ofTokens_of_parsed (parsed_of_ofTokens hsource hp)

/-- A source with an `else` behind two `if`s, a minus sign in front of a product, a literal beyond
    the words, and two expressions in parentheses that begin like calls. -/
def tangled : String :=
  "if(a)if(b)\x7b\x7delse-x*(2-(y-18446744073709551615));func f(a)\x7breturn;\x7d(f(1))+2;(f(3));"

/-- Its program as a text: the minus sign is a difference, and only one of the two expressions is
    still in parentheses. -/
def tangledText : String :=
  "func f ( a ) \x7b return ; \x7d if ( a ) if ( b ) \x7b \x7d else "
    ++ "( 0 - x ) * ( 2 - ( y - 18446744073709551615 ) ) ; ( f ( 1 ) + 2 ) ; f ( 3 ) ;"

theorem tangled_text : ∃ tokens p, Token.ofSource tangled = .ok tokens ∧
    Program.ofTokens 500 tokens = .ok p ∧ p.text = tangledText ∧
    ∃ tokens', Token.ofSource tangledText = .ok tokens' ∧
      ∃ q, Program.ofTokens (Program.frames tokens') tokens' = .ok q ∧ q.bare = p.bare := by
  have hread : ((Token.ofSource tangled).toOption.bind fun tokens =>
      (Program.ofTokens 500 tokens).toOption.map Program.text) = some tangledText := by cbv
  obtain ⟨tokens, htokens, hparse⟩ := Option.bind_eq_some_iff.mp hread
  obtain ⟨p, hp, htext⟩ := Option.map_eq_some_iff.mp hparse
  have hsource : Token.ofSource tangled = .ok tokens := by
    cases h : Token.ofSource tangled with
    | error e => rw [h] at htokens; cases htokens
    | ok ts => rw [h] at htokens; cases htokens; rfl
  have hprogram : Program.ofTokens 500 tokens = .ok p := by
    cases h : Program.ofTokens 500 tokens with
    | error e => rw [h] at hp; cases hp
    | ok q => rw [h] at hp; cases hp; rfl
  obtain ⟨tokens', hagain, hall⟩ := ofTokens_text hsource hprogram
  rw [htext] at hagain
  exact ⟨tokens, p, hsource, hprogram, htext, tokens', hagain, hall _ (Nat.le_refl _)⟩

end MiniLang
