import LambdaMachine.Atom
import LambdaMachine.Source.Token
import LambdaMachine.Term.Basic

/-!
# The grammar of programs

Which texts are programs, and of which terms, said without reading them. `Spells`
relates tokens to the texts that they can be cut from, and `Derives` relates terms to
their tokens.

Every derived term is closed under its abstractions (`Derives.closedUnder`) and has
one node for each token (`Derives.length_eq`).
-/

namespace LambdaMachine.Source

/-- Whether a character ends a line. -/
def IsBreak (c : Char) : Prop := c = '\n' ∨ c = '\r'

/-- Text between tokens: blanks, line breaks, and comments with the break that ends
them. -/
inductive Trivia : List Char → Prop where
  | nil : Trivia []
  | blank {c text} (hblank : c = ' ' ∨ c = '\t') (htext : Trivia text) :
      Trivia (c :: text)
  | lineBreak {c text} (hbreak : IsBreak c) (htext : Trivia text) : Trivia (c :: text)
  | comment {words c text} (hwords : ∀ x ∈ words, ¬ IsBreak x) (hbreak : IsBreak c)
      (htext : Trivia text) : Trivia (';' :: (words ++ c :: text))

/-- Text behind the last token. A comment there needs no line break. -/
inductive FinalTrivia : List Char → Prop where
  | trivia {text} (htext : Trivia text) : FinalTrivia text
  | comment {text words} (htext : Trivia text) (hwords : ∀ x ∈ words, ¬ IsBreak x) :
      FinalTrivia (text ++ ';' :: words)

/-- Whether a token ends where this text follows: a run goes on as long as it can. -/
def EndsBefore (text : List Char) : Token → Prop
  | .dots _ => text.head? ≠ some '.'
  | .colons _ => text.head? ≠ some ':'
  | _ => True

/-- A text is made of these tokens, with trivia before, between and behind them. -/
inductive Spells : List Token → List Char → Prop where
  | nil {gap} (hgap : FinalTrivia gap) : Spells [] gap
  | cons {gap token text tokens} (hgap : Trivia gap) (hends : EndsBefore text token)
      (htext : Spells tokens text) :
      Spells (token :: tokens) (gap ++ token.chars ++ text)

/-- Under a number of abstractions, these are the tokens of a term. -/
inductive Derives : Nat → List Token → Term Atom → Prop where
  | unit {depth} : Derives depth [.unit] (.leaf .unit)
  | var {depth index} (hbound : index < depth) : Derives depth [.dots index] (.var index)
  | put {depth} : Derives depth [.colons 0] (.leaf .put)
  | get {depth} : Derives depth [.colons 1] (.leaf .get)
  | random {depth} : Derives depth [.colons 2] (.leaf .random)
  | lam {depth tokens body} (hbody : Derives (depth + 1) tokens body) :
      Derives depth (.lam :: tokens) (.lam body)
  | app {depth tokens tokens' function argument}
      (hfunction : Derives depth tokens function)
      (hargument : Derives depth tokens' argument) :
      Derives depth (.app :: (tokens ++ tokens')) (.app function argument)

/-- A text is a program of a term. -/
def IsProgram (text : List Char) (term : Term Atom) : Prop :=
  ∃ tokens, Spells tokens text ∧ Derives 0 tokens term

theorem Derives.closedUnder {depth : Nat} {tokens : List Token} {term : Term Atom}
    (hderives : Derives depth tokens term) : term.ClosedUnder depth := by
  induction hderives with
  | var hbound => exact hbound
  | lam _ ih => exact ih
  | app _ _ ihf iha => exact ⟨ihf, iha⟩
  | _ => trivial

theorem Derives.length_eq {depth : Nat} {tokens : List Token} {term : Term Atom}
    (hderives : Derives depth tokens term) : tokens.length = term.size := by
  induction hderives with
  | lam _ ih => simp [Term.size, ih]
  | app _ _ ihf iha => simp [Term.size, ihf, iha]
  | _ => rfl

/-- The tokens of a term cannot be continued to those of another one, so they fix the
term and where it ends. -/
theorem Derives.det {depth : Nat} {tokens tokens' rest rest' : List Token}
    {term term' : Term Atom} (hleft : Derives depth tokens term)
    (hright : Derives depth tokens' term') (hsame : tokens ++ rest = tokens' ++ rest') :
    term = term' ∧ rest = rest' := by
  induction hleft generalizing tokens' rest rest' term' with
  | lam _ ih =>
      cases hright with
      | lam hbody =>
          simp only [List.cons_append, List.cons.injEq, true_and] at hsame
          obtain ⟨rfl, rfl⟩ := ih hbody hsame
          exact ⟨rfl, rfl⟩
      | _ => simp at hsame
  | app _ _ ihf iha =>
      cases hright with
      | app hfunction hargument =>
          simp only [List.cons_append, List.cons.injEq, true_and, List.append_assoc] at hsame
          obtain ⟨rfl, hrest⟩ := ihf hfunction hsame
          obtain ⟨rfl, rfl⟩ := iha hargument hrest
          exact ⟨rfl, rfl⟩
      | _ => simp at hsame
  | _ => cases hright <;> simp_all

end LambdaMachine.Source
