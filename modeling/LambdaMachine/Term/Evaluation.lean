import LambdaMachine.Term.Substitution

/-!
# Evaluation by value

The value of a term as a relation: the function part is evaluated, then the argument
part, then the abstraction is contracted and the contractum evaluated. Nothing is
evaluated under a binder. What applying anything but an abstraction means is left to
a rule, which may act on a state and may fail.

The relation also counts steps: one for each part that has to be gone down to, and
one for each application that is reduced. A term has at most one outcome if the rule
leaves no choice, which is `Evaluates.det`.
-/

namespace LambdaMachine.Term

variable {α ε σ : Type}

/-- What applying a value other than an abstraction to a value leads to, and in which
state. -/
abbrev Rule (α ε σ : Type) := σ → Term α → Term α → Except ε (Term α) → σ → Prop

/-- The step that goes down to a part, if the part has to be evaluated. -/
def descent (part : Term α) : Nat :=
  if part.isApp then 1 else 0

/-- In a state, the term has an outcome, which leaves another state and takes some
number of steps. -/
inductive Evaluates (rule : Rule α ε σ) :
    σ → Term α → Except ε (Term α) → σ → Nat → Prop where
  | value {state term} (hvalue : term.isApp = false) :
      Evaluates rule state term (.ok term) state 0
  | functionFails {state state' function argument error steps}
      (hfunction : Evaluates rule state function (.error error) state' steps) :
      Evaluates rule state (.app function argument) (.error error) state'
        (function.descent + steps)
  | argumentFails {state state₁ state₂ function argument head error steps₁ steps₂}
      (hfunction : Evaluates rule state function (.ok head) state₁ steps₁)
      (hargument : Evaluates rule state₁ argument (.error error) state₂ steps₂) :
      Evaluates rule state (.app function argument) (.error error) state₂
        (function.descent + steps₁ + (argument.descent + steps₂))
  | contract {state state₁ state₂ state₃ function argument body operand outcome
      steps₁ steps₂ steps₃}
      (hfunction : Evaluates rule state function (.ok (.lam body)) state₁ steps₁)
      (hargument : Evaluates rule state₁ argument (.ok operand) state₂ steps₂)
      (hbody : Evaluates rule state₂ (body.contract operand) outcome state₃ steps₃) :
      Evaluates rule state (.app function argument) outcome state₃
        (function.descent + steps₁ + (argument.descent + steps₂) + 1 + steps₃)
  | rule {state state₁ state₂ state₃ function argument head operand outcome
      steps₁ steps₂}
      (hfunction : Evaluates rule state function (.ok head) state₁ steps₁)
      (hhead : head.isLam = false)
      (hargument : Evaluates rule state₁ argument (.ok operand) state₂ steps₂)
      (hrule : rule state₂ head operand outcome state₃) :
      Evaluates rule state (.app function argument) outcome state₃
        (function.descent + steps₁ + (argument.descent + steps₂) + 1)

/-- The rule leaves no choice. -/
def Rule.Deterministic (rule : Rule α ε σ) : Prop :=
  ∀ state head operand outcome state' outcome' state'',
    rule state head operand outcome state' → rule state head operand outcome' state'' →
      outcome = outcome' ∧ state' = state''

/-- Outcome, state and number of steps are those of any other evaluation. -/
theorem Evaluates.det {rule : Rule α ε σ} (hrule : rule.Deterministic)
    {state state' state'' : σ} {term : Term α} {outcome outcome' : Except ε (Term α)}
    {steps steps' : Nat} (hleft : Evaluates rule state term outcome state' steps)
    (hright : Evaluates rule state term outcome' state'' steps') :
    outcome = outcome' ∧ state' = state'' ∧ steps = steps' := by
  induction hleft generalizing outcome' state'' steps' with
  | value hvalue =>
      cases hright with
      | value => exact ⟨rfl, rfl, rfl⟩
      | _ => simp [isApp] at hvalue
  | functionFails hfunction ih =>
      cases hright with
      | value hvalue => simp [isApp] at hvalue
      | functionFails h =>
          obtain ⟨heq, rfl, rfl⟩ := ih h
          exact ⟨heq, rfl, rfl⟩
      | argumentFails h => simpa using (ih h).1
      | contract h => simpa using (ih h).1
      | rule h => simpa using (ih h).1
  | argumentFails hfunction hargument ihf iha =>
      cases hright with
      | value hvalue => simp [isApp] at hvalue
      | functionFails h => simpa using (ihf h).1
      | argumentFails h ha =>
          obtain ⟨_, rfl, rfl⟩ := ihf h
          obtain ⟨heq, rfl, rfl⟩ := iha ha
          exact ⟨heq, rfl, rfl⟩
      | contract h ha =>
          obtain ⟨_, rfl, rfl⟩ := ihf h
          simpa using (iha ha).1
      | rule h _ ha =>
          obtain ⟨_, rfl, rfl⟩ := ihf h
          simpa using (iha ha).1
  | contract hfunction hargument hbody ihf iha ihb =>
      cases hright with
      | value hvalue => simp [isApp] at hvalue
      | functionFails h => simpa using (ihf h).1
      | argumentFails h ha =>
          obtain ⟨_, rfl, rfl⟩ := ihf h
          simpa using (iha ha).1
      | contract h ha hb =>
          obtain ⟨hlam, rfl, rfl⟩ := ihf h
          cases hlam
          obtain ⟨hoperand, rfl, rfl⟩ := iha ha
          cases hoperand
          obtain ⟨heq, rfl, rfl⟩ := ihb hb
          exact ⟨heq, rfl, rfl⟩
      | rule h hhead =>
          obtain ⟨hlam, _, _⟩ := ihf h
          cases hlam
          simp [isLam] at hhead
  | rule hfunction hhead hargument happly ihf iha =>
      cases hright with
      | value hvalue => simp [isApp] at hvalue
      | functionFails h => simpa using (ihf h).1
      | argumentFails h ha =>
          obtain ⟨_, rfl, rfl⟩ := ihf h
          simpa using (iha ha).1
      | contract h =>
          obtain ⟨hlam, _, _⟩ := ihf h
          cases hlam
          simp [isLam] at hhead
      | rule h _ ha hr =>
          obtain ⟨hlam, rfl, rfl⟩ := ihf h
          cases hlam
          obtain ⟨hoperand, rfl, rfl⟩ := iha ha
          cases hoperand
          obtain ⟨heq, rfl⟩ := hrule _ _ _ _ _ _ _ happly hr
          exact ⟨heq, rfl, rfl⟩

end LambdaMachine.Term
