import LambdaMachine.Term.Evaluation

/-!
# Infinite evaluations

An evaluation by value is infinite if the function part or the argument part keeps it
busy for ever, or the contractum does. Such evaluations are given by a set of terms from
which evaluation always leads on to another term of the set.

Where a rule applies to any two values, a term diverges exactly if it has no outcome.
-/

namespace LambdaMachine.Term

variable {α ε σ : Type} {rule : Rule α ε σ} {state : σ} {term : Term α}

/-- From each of these terms, evaluation leads on to another of them, with no end. -/
def Endless (rule : Rule α ε σ) (busy : σ → Term α → Prop) : Prop :=
  ∀ state term, busy state term → ∃ function argument, term = .app function argument ∧
    (busy state function ∨
      (∃ head state₁ steps, Evaluates rule state function (.ok head) state₁ steps ∧
        busy state₁ argument) ∨
      ∃ body operand state₁ state₂ steps steps',
        Evaluates rule state function (.ok (.lam body)) state₁ steps ∧
        Evaluates rule state₁ argument (.ok operand) state₂ steps' ∧
        busy state₂ (body.contract operand))

/-- The evaluation of the term is infinite. -/
def Diverges (rule : Rule α ε σ) (state : σ) (term : Term α) : Prop :=
  ∃ busy, Endless rule busy ∧ busy state term

/-- The rule says what every application of values but abstractions leads to. -/
def Rule.Total (rule : Rule α ε σ) : Prop :=
  ∀ state head operand, head.isLam = false →
    ∃ outcome state', rule state head operand outcome state'

/-- A term with an outcome is in no endless set. -/
theorem Evaluates.not_busy (hrule : rule.Deterministic) {busy : σ → Term α → Prop}
    (hendless : Endless rule busy) {outcome : Except ε (Term α)} {state' : σ} {steps : Nat}
    (heval : Evaluates rule state term outcome state' steps) : ¬ busy state term := by
  induction heval with
  | value hvalue =>
      intro hbusy
      obtain ⟨function, argument, rfl, _⟩ := hendless _ _ hbusy
      cases hvalue
  | functionFails hfunction ih =>
      intro hbusy
      obtain ⟨_, _, heq, hmore⟩ := hendless _ _ hbusy
      cases heq
      rcases hmore with hbusy | ⟨_, _, _, h, _⟩ | ⟨_, _, _, _, _, _, h, _⟩
      · exact ih hbusy
      · cases (hfunction.det hrule h).1
      · cases (hfunction.det hrule h).1
  | argumentFails hfunction hargument ihf iha =>
      intro hbusy
      obtain ⟨_, _, heq, hmore⟩ := hendless _ _ hbusy
      cases heq
      rcases hmore with hbusy | ⟨_, _, _, h, hbusy⟩ | ⟨_, _, _, _, _, _, h, ha, _⟩
      · exact ihf hbusy
      · obtain ⟨_, rfl, _⟩ := hfunction.det hrule h
        exact iha hbusy
      · obtain ⟨_, rfl, _⟩ := hfunction.det hrule h
        cases (hargument.det hrule ha).1
  | contract hfunction hargument _ ihf iha ihb =>
      intro hbusy
      obtain ⟨_, _, heq, hmore⟩ := hendless _ _ hbusy
      cases heq
      rcases hmore with hbusy | ⟨_, _, _, h, hbusy⟩ | ⟨_, _, _, _, _, _, h, ha, hbusy⟩
      · exact ihf hbusy
      · obtain ⟨_, rfl, _⟩ := hfunction.det hrule h
        exact iha hbusy
      · obtain ⟨hlam, rfl, _⟩ := hfunction.det hrule h
        cases hlam
        obtain ⟨hoperand, rfl, _⟩ := hargument.det hrule ha
        cases hoperand
        exact ihb hbusy
  | rule hfunction hhead _ _ ihf iha =>
      intro hbusy
      obtain ⟨_, _, heq, hmore⟩ := hendless _ _ hbusy
      cases heq
      rcases hmore with hbusy | ⟨_, _, _, h, hbusy⟩ | ⟨_, _, _, _, _, _, h, _⟩
      · exact ihf hbusy
      · obtain ⟨_, rfl, _⟩ := hfunction.det hrule h
        exact iha hbusy
      · obtain ⟨hlam, _⟩ := hfunction.det hrule h
        cases hlam
        cases hhead

/-- The terms without an outcome are an endless set. -/
theorem endless_of_total (htotal : rule.Total) :
    Endless rule fun state term =>
      ¬ ∃ outcome state' steps, Evaluates rule state term outcome state' steps := by
  intro state term hnone
  cases term with
  | app function argument =>
      refine ⟨function, argument, rfl, ?_⟩
      by_cases hfunction :
          ∃ outcome state' steps, Evaluates rule state function outcome state' steps
      · obtain ⟨outcome, state₁, steps, hfunction⟩ := hfunction
        cases outcome with
        | error error => exact absurd ⟨_, _, _, .functionFails hfunction⟩ hnone
        | ok head =>
            by_cases hargument :
                ∃ outcome state' steps, Evaluates rule state₁ argument outcome state' steps
            · obtain ⟨outcome, state₂, steps', hargument⟩ := hargument
              cases outcome with
              | error error => exact absurd ⟨_, _, _, .argumentFails hfunction hargument⟩ hnone
              | ok operand =>
                  -- Both parts have values. The rule would apply, so the
                  -- function part is an abstraction.
                  cases hlam : head.isLam with
                  | false =>
                      obtain ⟨_, _, happly⟩ := htotal state₂ head operand hlam
                      exact absurd ⟨_, _, _, .rule hfunction hlam hargument happly⟩ hnone
                  | true =>
                      obtain ⟨body, rfl⟩ : ∃ body, head = .lam body := by
                        cases head with
                        | lam body => exact ⟨body, rfl⟩
                        | _ => cases hlam
                      refine .inr (.inr ⟨_, _, _, _, _, _, hfunction, hargument, ?_⟩)
                      rintro ⟨_, _, _, hbody⟩
                      exact hnone ⟨_, _, _, .contract hfunction hargument hbody⟩
            · exact .inr (.inl ⟨_, _, _, hfunction, hargument⟩)
      · exact .inl hfunction
  | _ => exact absurd ⟨_, _, _, .value rfl⟩ hnone

/-- A term diverges exactly if it has no outcome. -/
theorem diverges_iff (hrule : rule.Deterministic) (htotal : rule.Total) :
    Diverges rule state term ↔
      ¬ ∃ outcome state' steps, Evaluates rule state term outcome state' steps := by
  constructor
  · rintro ⟨busy, hendless, hbusy⟩ ⟨_, _, _, heval⟩
    exact heval.not_busy hrule hendless hbusy
  · intro hnone
    exact ⟨_, endless_of_total htotal, hnone⟩

end LambdaMachine.Term
