import Mathlib
import LambdaMachine.Proofs.Asking
import LambdaMachine.Proofs.Hosts

/-!
# Running is evaluating

A run without a budget ends exactly if the evaluation of the program does, with its value or
its failure and after the same calls of the host (`run_iff_evaluates`). Each turn of the run is
one advance of the evaluation, as long as the evaluation is given the answers that the host
gives in the run.
-/

namespace LambdaMachine

open Layout (Layer)

variable {σ : Type}

namespace Atom

variable {τ : Type} (host : Host τ)

theorem rule_deterministic : Term.Rule.Deterministic (Rule host) := by
  intro around head operand outcome around₁ outcome' around₂ hleft hright
  cases hleft with
  | put hcounts =>
      cases hright with
      | put hcounts' =>
          cases hcounts.det hcounts'
          exact ⟨rfl, rfl⟩
      | putFails hcounts' => cases hcounts.det hcounts'
      | notNull hatom _ => cases hatom
  | putFails hcounts =>
      cases hright with
      | put hcounts' => cases hcounts.det hcounts'
      | putFails _ => exact ⟨rfl, rfl⟩
      | notNull hatom _ => cases hatom
  | notNull hatom hoperand =>
      cases hright with
      | put _ => cases hatom
      | putFails _ => cases hatom
      | notNull _ _ => exact ⟨rfl, rfl⟩
      | notAFunction => cases hatom
      | _ => exact absurd rfl hoperand
  | notAFunction =>
      cases hright with
      | notNull hatom _ => cases hatom
      | notAFunction => exact ⟨rfl, rfl⟩
  | _ => cases hright <;> simp_all

theorem rule_valued : Term.Rule.Valued (Rule host) := by
  intro around head operand value around' hrule
  cases hrule <;> rfl

/-- What applying a value other than an abstraction does if the evaluation may also be aborted
right afterwards. -/
inductive Abortable : Term.Rule Atom Failure (Surroundings τ) where
  | applied {around head operand outcome around'}
      (hrule : Rule host around head operand outcome around') :
      Abortable around head operand outcome around'
  | aborted {around head operand outcome around'}
      (hrule : Rule host around head operand outcome around') :
      Abortable around head operand (.error .aborted) around'

variable {host} {layers : List (Term.Layer Atom)} {term : Term Atom}
  {around around' : Surroundings τ} {stage : Term.Stage Atom Failure}

/-- An evaluation can be aborted after every advance that changes its surroundings. -/
theorem abortable_of_advances
    (hadvances : Term.Advances (Rule host) layers term around stage around') :
    Term.Advances (Abortable host) layers term around stage around' ∧
      (around' = around ∨
        Term.Advances (Abortable host) layers term around (.ended (.error .aborted)) around') := by
  cases hadvances with
  | function happ => exact ⟨.function happ, .inl rfl⟩
  | argument hvalue happ => exact ⟨.argument hvalue happ, .inl rfl⟩
  | contract hvalue => exact ⟨.contract hvalue, .inl rfl⟩
  | rule hhead hlam hvalue hrule =>
      exact ⟨.rule hhead hlam hvalue (.applied hrule),
        .inr (.rule hhead hlam hvalue (Abortable.aborted hrule))⟩

end Atom

namespace Session

variable {host : Host σ} {answers : Answers} {session next : Session (σ × List Call)}
  {stage : Term.Stage Atom Failure} {layers : List (Term.Layer Atom)} {term : Term Atom}
  {around around' : Surroundings (List Call)} {result : Except Failure (Term Atom)}
  {outcome : Outcome (σ × List Call)} {before last : Option Nat × Session (σ × List Call)}
  {budget : Option Nat} {failure : Failure} {fuel steps : Nat}

/-! ### One turn -/

/-- A step of a machine makes an advance of the evaluation that it shows. -/
theorem step_advances (hshows : session.Shows (.going layers term))
    (hstep : session.step host.noting fuel = .ok outcome)
    (hexplains : answers.Explains outcome.2.world.2) :
    ∃ stage, Term.Advances (Atom.Rule answers.host) layers term (session.around session.world.2)
        stage (outcome.2.around outcome.2.world.2) ∧
      outcome.1 = stage.failure? ∧ outcome.2.Shows stage := by
  obtain ⟨layers, redex, hat, rfl, rfl⟩ := hshows
  rcases At.step_cases hat host.noting with ⟨_, calls, stage, hfinishes, hmakes⟩ | hhangs
  · obtain rfl := hfinishes.det (finishes_of_step hstep)
    have hnotes := hmakes.performs.notes_eq
    rw [hnotes] at hexplains
    have hadvances := hmakes.advances answers session.world.2 hexplains
    rw [← hnotes] at hadvances
    exact ⟨stage, hadvances, hmakes.failure_eq, hmakes.shows⟩
  · rw [hhangs.step_eq] at hstep
    cases hstep

/-- A run ends with this outcome where the evaluation ends with this result. -/
structure Agrees (outcome : Outcome (σ × List Call)) (result : Except Failure (Term Atom))
    (around : Surroundings (List Call)) : Prop where
  failure_eq : outcome.1 = (.ended result : Term.Stage Atom Failure).failure?
  shows : outcome.2.Shows (.ended result)
  around_eq : outcome.2.around outcome.2.world.2 = around

/-- Without a failure a stage is going on or has ended in a value, where the run ends too. -/
theorem Shows.cases (hshows : session.Shows stage) (hnone : stage.failure? = none) :
    (∃ layers term, stage = .going layers term ∧ session.isOver none = false) ∨
      ∃ value, stage = .ended (.ok value) ∧ session.isOver none = true := by
  cases stage with
  | going layers term => exact .inl ⟨layers, term, rfl, hshows.isOver_of_going⟩
  | ended result =>
      cases result with
      | ok value => exact .inr ⟨value, rfl, hshows.isOver_of_ended none⟩
      | error failure => cases hnone

theorem eq_of_failure? (hfailure : stage.failure? = some failure) :
    stage = .ended (.error failure) := by
  cases stage with
  | going layers term => cases hfailure
  | ended result =>
      cases result with
      | ok value => cases hfailure
      | error failure' => rw [Option.some.inj hfailure]

/-- A run stops where the evaluation ends. -/
theorem Stops.exists_runs (hsleep : ∀ world, (host.sleep world).1 = false)
    (hstops : session.Stops host.noting none outcome) (hgives : session.Gives host answers)
    (hshows : session.Shows stage) (hnone : stage.failure? = none) :
    ∃ result around steps, Term.Runs (Atom.Rule answers.host) stage
      (session.around session.world.2) result around steps ∧ Agrees outcome result around := by
  cases hstops with
  | finished hover =>
      rcases hshows.cases hnone with ⟨_, _, _, hgoing⟩ | ⟨value, rfl, _⟩
      · rw [hover] at hgoing
        cases hgoing
      · exact ⟨_, _, 0, .ended, ⟨rfl, hshows, rfl⟩⟩
  | refused hgoing hstep =>
      rcases hshows.cases hnone with ⟨layers, term, rfl, _⟩ | ⟨_, _, hover⟩
      · obtain ⟨stage', hadvances, hfailure, hshows'⟩ :=
          step_advances hshows hstep (hgives.of_step hstep)
        obtain rfl := eq_of_failure? hfailure.symm
        exact ⟨_, _, 1, .advance hadvances .ended, ⟨rfl, hshows', rfl⟩⟩
      · rw [hover] at hgoing
        cases hgoing
  | @aborted _ _ stepped _ _ _ hpause =>
      obtain ⟨_, hpause'⟩ := exists_pause hsleep (Option.map (· - 1) none) stepped
      rw [hpause'] at hpause
      cases hpause

/-- A turn of a run is an advance of the evaluation. -/
theorem Turns.exists_advances (hturns : Turns host.noting (none, session) (budget, next))
    (hgives : session.Gives host answers) (hshows : session.Shows stage)
    (hnone : stage.failure? = none) :
    ∃ layers term stage', stage = .going layers term ∧
      Term.Advances (Atom.Rule answers.host) layers term (session.around session.world.2) stage'
        (next.around next.world.2) ∧ next.Shows stage' ∧ stage'.failure? = none := by
  obtain ⟨hgoing, _, _, stepped, hstep, hpause⟩ := hturns
  rcases hshows.cases hnone with ⟨layers, term, rfl, _⟩ | ⟨_, _, hover⟩
  · obtain ⟨stage', hadvances, hfailure, hshows'⟩ :=
      step_advances hshows hstep (hgives.of_step hstep)
    have hmachine := machine_of_pause hpause
    refine ⟨layers, term, stage', rfl, ?_, hshows'.of_machine hmachine, hfailure.symm⟩
    rwa [notes_of_pause hpause, around_of_machine hmachine]
  · rw [hover] at hgoing
    cases hgoing

/-- If a run ends, the evaluation does. -/
theorem Drives.exists_runs (hsleep : ∀ world, (host.sleep world).1 = false)
    (hdrives : Drives host.noting before last) (hstops : last.2.Stops host.noting last.1 outcome)
    (hbudget : before.1 = none) (hgives : before.2.Gives host answers)
    (hshows : before.2.Shows stage) (hnone : stage.failure? = none) :
    ∃ result around steps, Term.Runs (Atom.Rule answers.host) stage
      (before.2.around before.2.world.2) result around steps ∧ Agrees outcome result around := by
  induction hdrives using Relation.ReflTransGen.head_induction_on generalizing stage with
  | refl =>
      rw [hbudget] at hstops
      exact hstops.exists_runs hsleep hgives hshows hnone
  | @head before middle hturns _ ih =>
      obtain ⟨_, session⟩ := before
      obtain ⟨_, next⟩ := middle
      subst hbudget
      obtain ⟨layers, term, stage', rfl, hadvances, hshows', hnone'⟩ :=
        hturns.exists_advances hgives hshows hnone
      obtain ⟨result, around, steps, hruns, hagrees⟩ :=
        ih hturns.budget_eq (hgives.of_turns hturns) hshows' hnone'
      exact ⟨result, around, steps + 1, .advance hadvances hruns, hagrees⟩

variable {calls : List Call}

/-- What the host is asked in a turn it is asked where the evaluation can be aborted. -/
theorem Notes.exists_runs (hnotes : session.Notes host calls) (hgives : session.Gives host answers)
    (hshows : session.Shows stage) (hnone : stage.failure? = none) :
    session.world.2 = calls ∨ ∃ around steps, Term.Runs (Atom.Abortable answers.host) stage
      (session.around session.world.2) (.error .aborted) around steps ∧ around.world = calls := by
  rcases hnotes with heq | ⟨fuel, outcome, hstep, rfl⟩
  · exact .inl heq
  · cases stage with
    | going layers term =>
        obtain ⟨_, hadvances, _⟩ := step_advances hshows hstep (hgives.of_step hstep)
        rcases (Atom.abortable_of_advances hadvances).2 with heq | haborted
        · exact .inl (congrArg Surroundings.world heq).symm
        · exact .inr ⟨_, 1, .advance haborted .ended, rfl⟩
    | ended result =>
        cases result with
        | error failure => cases hnone
        | ok value =>
            obtain ⟨_, hdone, _⟩ := hshows
            rw [step_of_ended hdone.redex_eq] at hstep
            cases hstep
            exact .inl rfl

theorem fail_notes (hfail : session.fail host.noting fuel failure = .ok next) :
    next.world.2 = session.world.2 := by
  obtain ⟨logged, hlog, heq⟩ := bind_eq_ok_iff.mp hfail
  obtain ⟨text, _, heq'⟩ := bind_eq_ok_iff.mp hlog
  cases heq
  cases heq'
  rfl

section Whole

variable {around : Surroundings (List Call)} {value : Term Atom}
  (hsleep : ∀ world, (host.sleep world).1 = false) (hgives : session.Gives host answers)
  (hshows : session.Shows (.enter [] term)) (haround : session.around session.world.2 = around)
include hsleep hgives hshows haround

/-- What a run ends with, the evaluation ends with. -/
theorem exists_evaluates (hrun : session.run host.noting fuel none false = .ok outcome) :
    ∃ last result around' steps,
      Program.Evaluates answers.host around term result around' steps ∧
      Agrees (outcome.1, last) result around' ∧ outcome.2.world.2 = last.world.2 ∧
      (outcome.1 = none → outcome.2 = last) := by
  obtain ⟨last, hdrive, hrest⟩ := run_eq_ok hrun
  obtain ⟨stop, hdrives, hstops⟩ := exists_stops hdrive
  obtain ⟨result, around', steps, hruns, hagrees⟩ := hdrives.exists_runs hsleep hstops rfl hgives
    hshows (Term.Stage.failure?_enter [] term)
  rw [haround] at hruns
  refine ⟨last, result, around', steps,
    (Term.runs_iff_evaluates (Atom.rule_valued _)).mp hruns, hagrees, ?_⟩
  obtain ⟨failure, next⟩ := outcome
  cases failure with
  | none =>
      obtain rfl : next = last := hrest
      exact ⟨rfl, fun _ => rfl⟩
  | some failure => exact ⟨fail_notes hrest, fun hnone => by cases hnone⟩

end Whole

end Session

end LambdaMachine
