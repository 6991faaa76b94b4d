import LambdaMachine.Term.Evaluation
import Mathlib.Tactic.Convert

/-!
# Evaluation in stages

Evaluation can be done without recursion, by keeping the layers of applications around
the one that is evaluated. A stage is such a position or an outcome, and each advance
makes one of the steps that evaluation counts.

The main statement is `runs_iff_evaluates`: the stages of a term run to an outcome in
some number of advances exactly if the term evaluates to it in as many steps.
-/

namespace LambdaMachine.Term

variable {α ε σ : Type}

/-- An application around a position, which is one of its parts; the other part is
given. -/
inductive Layer (α : Type) where
  | function (argument : Term α)
  | argument (function : Term α)

/-- The application with a term at the position. -/
def Layer.around : Layer α → Term α → Term α
  | .function right, term => .app term right
  | .argument left, term => .app left term

/-- The whole term with a term at the position inside the layers, the innermost first. -/
def within : List (Layer α) → Term α → Term α
  | [], term => term
  | layer :: layers, term => within layers (layer.around term)

/-- The part beside the position. -/
def Layer.given : Layer α → Term α
  | .function right => right
  | .argument left => left

/-- What holds of an application if it holds of both parts holds of the whole if it holds of
the term at the position and of what is beside it. -/
theorem within_iff {P : Term α → Prop}
    (happ : ∀ function argument, P (.app function argument) ↔ P function ∧ P argument)
    (layers : List (Layer α)) (term : Term α) :
    P (within layers term) ↔ P term ∧ ∀ layer ∈ layers, P layer.given := by
  induction layers generalizing term with
  | nil => simp [within]
  | cons layer layers ih =>
      have haround : P (layer.around term) ↔ P term ∧ P layer.given := by
        cases layer with
        | function right => exact happ term right
        | argument left => exact (happ left term).trans And.comm
      rw [within, ih, haround, List.forall_mem_cons, and_assoc]

/-- How far an evaluation has come: an application inside its layers, or an outcome. -/
inductive Stage (α ε : Type) where
  | going (layers : List (Layer α)) (term : Term α)
  | ended (outcome : Except ε (Term α))

namespace Stage

/-- A value was found inside the layers. -/
def resume : List (Layer α) → Term α → Stage α ε
  | [], value => .ended (.ok value)
  | layer :: layers, value => .going layers (layer.around value)

/-- A term is to be evaluated inside the layers. -/
def enter (layers : List (Layer α)) (term : Term α) : Stage α ε :=
  if term.isApp then .going layers term else resume layers term

/-- A term inside the layers has this outcome. -/
def finish (layers : List (Layer α)) : Except ε (Term α) → Stage α ε
  | .ok value => resume layers value
  | .error error => .ended (.error error)

/-- The error with which the stages ended, if they did so. -/
def failure? : Stage α ε → Option ε
  | .ended (.error error) => some error
  | _ => none

theorem failure?_resume (layers : List (Layer α)) (value : Term α) :
    (resume layers value : Stage α ε).failure? = none := by
  cases layers <;> rfl

theorem failure?_enter (layers : List (Layer α)) (term : Term α) :
    (enter layers term : Stage α ε).failure? = none := by
  unfold enter
  split
  · rfl
  · exact failure?_resume layers term

theorem enter_of_isApp {layers : List (Layer α)} {term : Term α} (happ : term.isApp = true) :
    (enter layers term : Stage α ε) = .going layers term := by
  simp [enter, happ]

theorem enter_of_value {layers : List (Layer α)} {term : Term α} (hvalue : term.isApp = false) :
    (enter layers term : Stage α ε) = resume layers term := by
  simp [enter, hvalue]

end Stage

/-- The next stage of an application inside its layers. -/
inductive Advances (rule : Rule α ε σ) :
    List (Layer α) → Term α → σ → Stage α ε → σ → Prop where
  | function {layers function argument state} (happ : function.isApp = true) :
      Advances rule layers (.app function argument) state
        (.going (.function argument :: layers) function) state
  | argument {layers function argument state} (hvalue : function.isApp = false)
      (happ : argument.isApp = true) :
      Advances rule layers (.app function argument) state
        (.going (.argument function :: layers) argument) state
  | contract {layers body operand state} (hvalue : operand.isApp = false) :
      Advances rule layers (.app (.lam body) operand) state
        (.enter layers (body.contract operand)) state
  | rule {layers head operand outcome state state'} (hhead : head.isApp = false)
      (hlam : head.isLam = false) (hvalue : operand.isApp = false)
      (hrule : rule state head operand outcome state') :
      Advances rule layers (.app head operand) state (.finish layers outcome) state'

/-- The stages from one on come to an outcome after some number of advances. -/
inductive Runs (rule : Rule α ε σ) : Stage α ε → σ → Except ε (Term α) → σ → Nat → Prop where
  | ended {outcome state} : Runs rule (.ended outcome) state outcome state 0
  | advance {layers term stage outcome state state₁ state₂ steps}
      (hadvance : Advances rule layers term state stage state₁)
      (hruns : Runs rule stage state₁ outcome state₂ steps) :
      Runs rule (.going layers term) state outcome state₂ (steps + 1)

/-- What a rule gives is a value or an error. -/
def Rule.Valued (rule : Rule α ε σ) : Prop :=
  ∀ state head operand value state',
    rule state head operand (.ok value) state' → value.isApp = false

variable {rule : Rule α ε σ} {state state₁ state₂ state₃ : σ}
  {term function argument head operand : Term α} {outcome outcome' : Except ε (Term α)}
  {layers : List (Layer α)} {steps steps₁ steps₂ : Nat}

theorem Advances.isApp_eq_true {stage : Stage α ε}
    (h : Advances rule layers term state stage state₁) :
    term.isApp = true := by
  cases h <;> rfl

theorem Runs.exists_advances (h : Runs rule (.going layers term) state outcome state₂ (steps + 1)) :
    ∃ stage state₁, Advances rule layers term state stage state₁ ∧
      Runs rule stage state₁ outcome state₂ steps := by
  cases h with
  | advance hadvance hruns => exact ⟨_, _, hadvance, hruns⟩

theorem Advances.det (hrule : rule.Deterministic) {stage stage' : Stage α ε}
    (hleft : Advances rule layers term state stage state₁)
    (hright : Advances rule layers term state stage' state₂) :
    stage = stage' ∧ state₁ = state₂ := by
  cases hleft with
  | function happ =>
      cases hright with
      | function _ => exact ⟨rfl, rfl⟩
      | argument hvalue _ => simp [happ] at hvalue
      | contract _ => simp [isApp] at happ
      | rule hhead _ _ _ => simp [happ] at hhead
  | argument hvalue happ =>
      cases hright with
      | function happ' => simp [hvalue] at happ'
      | argument _ _ => exact ⟨rfl, rfl⟩
      | contract hvalue' => simp [happ] at hvalue'
      | rule _ _ hvalue' _ => simp [happ] at hvalue'
  | contract hvalue =>
      cases hright with
      | function happ' => simp [isApp] at happ'
      | argument _ happ' => simp [hvalue] at happ'
      | contract _ => exact ⟨rfl, rfl⟩
      | rule _ hlam _ _ => simp [isLam] at hlam
  | rule hhead hlam hvalue hleft =>
      cases hright with
      | function happ' => simp [hhead] at happ'
      | argument _ happ' => simp [hvalue] at happ'
      | contract _ => simp [isLam] at hlam
      | rule _ _ _ hright =>
          obtain ⟨rfl, rfl⟩ := hrule _ _ _ _ _ _ _ hleft hright
          exact ⟨rfl, rfl⟩

/-! ### Values -/

/-- A value has itself as its only outcome. -/
theorem Evaluates.eq_of_value (hvalue : term.isApp = false)
    (h : Evaluates rule state term outcome state₁ steps) :
    outcome = .ok term ∧ state₁ = state ∧ steps = 0 := by
  cases h with
  | value _ => exact ⟨rfl, rfl, rfl⟩
  | _ => simp [isApp] at hvalue

/-- An evaluation that does not fail ends in a value. -/
theorem Evaluates.isApp_eq_false (hrule : rule.Valued)
    (h : Evaluates rule state term outcome state₁ steps) {value : Term α}
    (houtcome : outcome = .ok value) : value.isApp = false := by
  induction h with
  | value hvalue => exact Except.ok.inj houtcome ▸ hvalue
  | functionFails => cases houtcome
  | argumentFails => cases houtcome
  | contract _ _ _ _ _ ih => exact ih houtcome
  | rule _ _ _ happly => exact hrule _ _ _ _ _ (houtcome ▸ happly)

/-- A value fails nowhere, so what fails is an application. -/
theorem Evaluates.isApp_of_error {error : ε}
    (h : Evaluates rule state term (.error error) state₁ steps) : term.isApp = true := by
  cases hvalue : term.isApp with
  | true => rfl
  | false => cases (h.eq_of_value hvalue).1

theorem descent_of_value (hvalue : term.isApp = false) : term.descent = 0 := by
  simp [descent, hvalue]

theorem descent_of_isApp (happ : term.isApp = true) : term.descent = 1 := by
  simp [descent, happ]

/-! ### Evaluations as runs -/

/-- Every run from the outcome of an evaluation on is the end of one from its term on. -/
def Leads (rule : Rule α ε σ) (state : σ) (term : Term α) (outcome : Except ε (Term α))
    (state₁ : σ) (steps : Nat) : Prop :=
  ∀ layers outcome' state₂ more, Runs rule (.finish layers outcome) state₁ outcome' state₂ more →
    Runs rule (.enter layers term) state outcome' state₂ (steps + more)

/-- The function part of an application is evaluated first. -/
theorem Leads.of_function (hfunction : Leads rule state function (.ok head) state₁ steps₁)
    (heval : Evaluates rule state function (.ok head) state₁ steps₁)
    (hruns : Runs rule (.enter layers (.app head argument)) state₁ outcome state₂ steps) :
    Runs rule (.enter layers (.app function argument)) state outcome state₂
      (function.descent + steps₁ + steps) := by
  cases happ : function.isApp with
  | false =>
      obtain ⟨heq, rfl, rfl⟩ := heval.eq_of_value happ
      cases heq
      simpa [descent_of_value happ] using hruns
  | true =>
      have hinner := hfunction (.function argument :: layers) _ _ _ hruns
      rw [Stage.enter_of_isApp happ] at hinner
      rw [descent_of_isApp happ, show 1 + steps₁ + steps = steps₁ + steps + 1 by omega]
      exact .advance (.function happ) hinner

/-- Then the argument part is evaluated. -/
theorem Leads.of_argument (hhead : head.isApp = false)
    (hargument : Leads rule state argument (.ok operand) state₁ steps₁)
    (heval : Evaluates rule state argument (.ok operand) state₁ steps₁)
    (hruns : Runs rule (.enter layers (.app head operand)) state₁ outcome state₂ steps) :
    Runs rule (.enter layers (.app head argument)) state outcome state₂
      (argument.descent + steps₁ + steps) := by
  cases happ : argument.isApp with
  | false =>
      obtain ⟨heq, rfl, rfl⟩ := heval.eq_of_value happ
      cases heq
      simpa [descent_of_value happ] using hruns
  | true =>
      have hinner := hargument (.argument head :: layers) _ _ _ hruns
      rw [Stage.enter_of_isApp happ] at hinner
      rw [descent_of_isApp happ, show 1 + steps₁ + steps = steps₁ + steps + 1 by omega]
      exact .advance (.argument hhead happ) hinner

theorem Evaluates.leads (hrule : rule.Valued)
    (h : Evaluates rule state term outcome state₁ steps) :
    Leads rule state term outcome state₁ steps := by
  induction h with
  | value hvalue =>
      intro layers outcome' state₂ more hruns
      rw [Stage.enter_of_value hvalue, Nat.zero_add]
      exact hruns
  | @functionFails _ _ _ argument _ _ hfunction ih =>
      intro layers outcome' state₂ more hruns
      have happ := hfunction.isApp_of_error
      have hinner := ih (.function argument :: layers) _ _ _ hruns
      rw [Stage.enter_of_isApp happ] at hinner
      rw [descent_of_isApp happ, Nat.add_assoc, Nat.add_comm 1]
      exact .advance (.function happ) hinner
  | @argumentFails _ _ _ _ _ head _ _ _ hfunction hargument ihf iha =>
      intro layers outcome' state₂ more hruns
      have happ := hargument.isApp_of_error
      have hinner := iha (.argument head :: layers) _ _ _ hruns
      rw [Stage.enter_of_isApp happ] at hinner
      have hvalue := hfunction.isApp_eq_false hrule rfl
      have hwhole := ihf.of_function hfunction (.advance (.argument hvalue happ) hinner)
      have hdown := descent_of_isApp happ
      convert hwhole using 1
      omega
  | contract hfunction hargument hbody ihf iha ihb =>
      intro layers outcome' state₂ more hruns
      have hrest := Runs.advance (.contract (hargument.isApp_eq_false hrule rfl))
        (ihb layers _ _ _ hruns)
      have hwhole := ihf.of_function hfunction (iha.of_argument rfl hargument hrest)
      convert hwhole using 1
      omega
  | rule hfunction hhead hargument happly ihf iha =>
      intro layers outcome' state₂ more hruns
      have hvalue := hfunction.isApp_eq_false hrule rfl
      have hrest := Runs.advance
        (.rule hvalue hhead (hargument.isApp_eq_false hrule rfl) happly) hruns
      have hwhole := ihf.of_function hfunction (iha.of_argument hvalue hargument hrest)
      convert hwhole using 1
      omega

/-! ### Runs as evaluations -/

/-- Evaluating the function part beforehand changes nothing. -/
theorem Evaluates.app_function (hrule : rule.Valued) (happ : function.isApp = true)
    (hfunction : Evaluates rule state function (.ok head) state₁ steps₁)
    (happly : Evaluates rule state₁ (.app head argument) outcome state₂ steps₂) :
    Evaluates rule state (.app function argument) outcome state₂ (1 + steps₁ + steps₂) := by
  have hvalue := hfunction.isApp_eq_false hrule rfl
  have hdown : function.descent + steps₁ = 1 + steps₁ := by rw [descent_of_isApp happ]
  have hstay := descent_of_value hvalue
  cases happly with
  | value happ' => cases happ'
  | functionFails hfails => cases (hfails.eq_of_value hvalue).1
  | argumentFails hhead hfails =>
      obtain ⟨heq, rfl, rfl⟩ := hhead.eq_of_value hvalue
      cases heq
      convert Evaluates.argumentFails hfunction hfails using 1
      omega
  | contract hhead hargument hbody =>
      obtain ⟨heq, rfl, rfl⟩ := hhead.eq_of_value hvalue
      cases heq
      convert Evaluates.contract hfunction hargument hbody using 1
      omega
  | rule hhead hlam hargument hrule =>
      obtain ⟨heq, rfl, rfl⟩ := hhead.eq_of_value hvalue
      cases heq
      convert Evaluates.rule hfunction hlam hargument hrule using 1
      omega

/-- Evaluating the argument part beforehand changes nothing, if the function part is a
value. -/
theorem Evaluates.app_argument (hrule : rule.Valued) (hhead : head.isApp = false)
    (happ : argument.isApp = true)
    (hargument : Evaluates rule state argument (.ok operand) state₁ steps₁)
    (happly : Evaluates rule state₁ (.app head operand) outcome state₂ steps₂) :
    Evaluates rule state (.app head argument) outcome state₂ (1 + steps₁ + steps₂) := by
  have hvalue := hargument.isApp_eq_false hrule rfl
  have hdown : argument.descent + steps₁ = 1 + steps₁ := by rw [descent_of_isApp happ]
  have hstay := descent_of_value hvalue
  have hstay' := descent_of_value hhead
  cases happly with
  | value happ' => cases happ'
  | functionFails hfails => cases (hfails.eq_of_value hhead).1
  | argumentFails _ hfails => cases (hfails.eq_of_value hvalue).1
  | contract hfunction hoperand hbody =>
      obtain ⟨heq, rfl, rfl⟩ := hfunction.eq_of_value hhead
      cases heq
      obtain ⟨heq, rfl, rfl⟩ := hoperand.eq_of_value hvalue
      cases heq
      convert Evaluates.contract (.value hhead) hargument hbody using 1
      omega
  | rule hfunction hlam hoperand hrule =>
      obtain ⟨heq, rfl, rfl⟩ := hfunction.eq_of_value hhead
      cases heq
      obtain ⟨heq, rfl, rfl⟩ := hoperand.eq_of_value hvalue
      cases heq
      convert Evaluates.rule (.value hhead) hlam hargument hrule using 1
      omega

/-- A run evaluates the term that it begins with, and goes on from the outcome. -/
theorem Runs.exists_evaluates (hrule : rule.Valued)
    (hruns : Runs rule (.enter layers term) state outcome state₂ steps) :
    ∃ found state₁ steps₁ steps₂, Evaluates rule state term found state₁ steps₁ ∧
      Runs rule (.finish layers found) state₁ outcome state₂ steps₂ ∧
      steps = steps₁ + steps₂ := by
  -- The run from the value of a part on is given by the induction hypothesis, so it is no part of
  -- the run at hand, but it is shorter.
  induction steps using Nat.strongRecOn generalizing layers term state with
  | ind steps ih =>
      cases happ : term.isApp with
      | false =>
          rw [Stage.enter_of_value happ] at hruns
          exact ⟨_, _, 0, steps, .value happ, hruns, (Nat.zero_add _).symm⟩
      | true =>
          rw [Stage.enter_of_isApp happ] at hruns
          cases hruns with
          | advance hadvance hrest =>
              cases hadvance with
              | function hfunction =>
                  rw [← Stage.enter_of_isApp hfunction] at hrest
                  obtain ⟨found, _, steps₁, steps₂, heval, hafter, rfl⟩ := ih _ (by omega) hrest
                  cases found with
                  | error error =>
                      refine ⟨_, _, _, steps₂, .functionFails heval, hafter, ?_⟩
                      rw [descent_of_isApp hfunction]
                      omega
                  | ok head =>
                      change Runs rule (.enter layers (.app head _)) _ _ _ _ at hafter
                      obtain ⟨found, _, steps₃, steps₄, happly, hdone, rfl⟩ :=
                        ih steps₂ (by omega) hafter
                      exact ⟨_, _, _, steps₄, heval.app_function hrule hfunction happly, hdone,
                        by omega⟩
              | argument hhead hargument =>
                  rw [← Stage.enter_of_isApp hargument] at hrest
                  obtain ⟨found, _, steps₁, steps₂, heval, hafter, rfl⟩ := ih _ (by omega) hrest
                  cases found with
                  | error error =>
                      refine ⟨_, _, _, steps₂, .argumentFails (.value hhead) heval, hafter, ?_⟩
                      rw [descent_of_value hhead, descent_of_isApp hargument]
                      omega
                  | ok operand =>
                      change Runs rule (.enter layers (.app _ operand)) _ _ _ _ at hafter
                      obtain ⟨found, _, steps₃, steps₄, happly, hdone, rfl⟩ :=
                        ih steps₂ (by omega) hafter
                      exact ⟨_, _, _, steps₄, heval.app_argument hrule hhead hargument happly,
                        hdone, by omega⟩
              | contract hvalue =>
                  obtain ⟨found, _, steps₁, steps₂, heval, hafter, rfl⟩ := ih _ (by omega) hrest
                  refine ⟨_, _, _, steps₂, .contract (.value rfl) (.value hvalue) heval, hafter, ?_⟩
                  rw [descent_of_value hvalue]
                  simp [descent, isApp]
                  omega
              | rule hhead hlam hvalue happly =>
                  refine ⟨_, _, _, _, .rule (.value hhead) hlam (.value hvalue) happly, hrest, ?_⟩
                  rw [descent_of_value hhead, descent_of_value hvalue]
                  omega

/-- The stages of a term run to an outcome exactly if the term evaluates to it, in as many
steps. -/
theorem runs_iff_evaluates (hrule : rule.Valued) :
    Runs rule (.enter [] term) state outcome state₁ steps ↔
      Evaluates rule state term outcome state₁ steps := by
  constructor
  · intro hruns
    obtain ⟨found, _, steps₁, steps₂, heval, hrest, rfl⟩ := hruns.exists_evaluates hrule
    cases found with
    | ok value =>
        cases hrest
        exact heval
    | error error =>
        cases hrest
        exact heval
  · intro heval
    have hended : Runs rule (.finish [] outcome) state₁ outcome state₁ 0 := by
      cases outcome <;> exact .ended
    exact heval.leads hrule [] _ _ _ hended

end LambdaMachine.Term
