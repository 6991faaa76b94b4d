import LambdaMachine.Machine.Fuel
import LambdaMachine.Proofs.Finishing
import Mathlib.Logic.Relation

/-!
# Turns of a run

A run goes on by turns, each a step and the pause behind it, until there is no further step
to make or the next turn fails. This says what a run does without its fuel
(`drive_finishes_iff`), so that facts about runs follow from facts about single turns.
-/

namespace LambdaMachine.Session

variable {σ : Type}

/-- One turn of a run, with what is left of the budget before and after it. -/
structure Turns (host : Host σ) (before after : Option Nat × Session σ) : Prop where
  going : before.2.isOver before.1 = false
  budget_eq : after.1 = before.1.map (· - 1)
  exists_step : ∃ fuel stepped, before.2.step host fuel = .ok (none, stepped) ∧
    stepped.pause host after.1 = (none, after.2)

/-- Turns of a run, from one budget and session to another. -/
abbrev Drives (host : Host σ) : Option Nat × Session σ → Option Nat × Session σ → Prop :=
  Relation.ReflTransGen (Turns host)

/-- A run ends here with this outcome, before another turn is made. -/
inductive Stops (host : Host σ) (budget : Option Nat) (session : Session σ) :
    Outcome σ → Prop where
  | finished (hover : session.isOver budget = true) : Stops host budget session (none, session)
  | refused {fuel failure last} (hgoing : session.isOver budget = false)
      (hstep : session.step host fuel = .ok (some failure, last)) :
      Stops host budget session (some failure, last)
  | aborted {fuel failure stepped last} (hgoing : session.isOver budget = false)
      (hstep : session.step host fuel = .ok (none, stepped))
      (hpause : stepped.pause host (budget.map (· - 1)) = (some failure, last)) :
      Stops host budget session (some failure, last)

variable {host : Host σ} {session stepped next last : Session σ} {budget budget' : Option Nat}
  {fuel : Nat} {failure : Failure} {outcome : Outcome σ}
  {before after after' : Option Nat × Session σ}

/-! ### Single turns -/

theorem finishes_of_step (hstep : session.step host fuel = .ok outcome) :
    Finishes (fun fuel => session.step host fuel) outcome :=
  .of_ok (fun hfuel => step_mono hfuel host session) hstep

theorem Turns.det (hleft : Turns host before after) (hright : Turns host before after') :
    after = after' := by
  obtain ⟨_, hbudget, _, stepped, hstep, hpause⟩ := hleft
  obtain ⟨_, hbudget', _, stepped', hstep', hpause'⟩ := hright
  have heq := (finishes_of_step hstep).det (finishes_of_step hstep')
  cases heq
  rw [hbudget] at hpause
  rw [hbudget', hpause] at hpause'
  obtain ⟨_, next⟩ := after
  obtain ⟨_, next'⟩ := after'
  cases hpause'
  subst hbudget hbudget'
  rfl

theorem turns_rightUnique : Relator.RightUnique (Turns host) :=
  fun _ _ _ hleft hright => hleft.det hright

theorem isOver_some_succ (session : Session σ) (n : Nat) :
    session.isOver (some (n + 1)) = session.isOver none := by
  simp [isOver]

/-- Where more than a step is left of the budget, it makes no difference to a pause. -/
theorem pause_some_succ (host : Host σ) (session : Session σ) (n : Nat) :
    session.pause host (some (n + 1)) = session.pause host none := by
  rw [pause, pause, isOver_some_succ]

theorem drive_of_over (hover : session.isOver budget = true) (fuel : Nat) :
    session.drive host fuel budget = .ok (none, session) := by
  unfold drive
  rw [if_pos hover]

/-- Where there is a step to make, it is made and paused behind. -/
theorem drive_of_going (hgoing : session.isOver budget = false) (fuel : Nat) :
    session.drive host (fuel + 1) budget = (do
      match ← session.step host fuel with
      | (some failure, last) => return (some failure, last)
      | (none, stepped) =>
          match stepped.pause host (budget.map (· - 1)) with
          | (some failure, last) => return (some failure, last)
          | (none, next) => next.drive host fuel (budget.map (· - 1))) := by
  have hnot : ¬ session.isOver budget = true := by simp [hgoing]
  rw [drive]
  exact if_neg hnot

theorem Stops.finishes_drive (hstops : session.Stops host budget outcome) :
    Finishes (fun fuel => session.drive host fuel budget) outcome := by
  cases hstops with
  | finished hover => exact .of_eq fun fuel => drive_of_over hover fuel
  | refused hgoing hstep =>
      apply Finishes.of_succ
      simp only [drive_of_going hgoing]
      exact (finishes_of_step hstep).bind (.pure _)
  | aborted hgoing hstep hpause =>
      apply Finishes.of_succ
      simp only [drive_of_going hgoing]
      refine (finishes_of_step hstep).bind ?_
      simp only [hpause]
      exact .pure _

theorem Turns.finishes_drive (hturns : Turns host before after)
    (hrest : Finishes (fun fuel => after.2.drive host fuel after.1) outcome) :
    Finishes (fun fuel => before.2.drive host fuel before.1) outcome := by
  obtain ⟨hgoing, hbudget, _, stepped, hstep, hpause⟩ := hturns
  apply Finishes.of_succ
  simp only [drive_of_going hgoing]
  refine (finishes_of_step hstep).bind ?_
  rw [hbudget] at hpause hrest
  simpa only [hpause] using hrest

/-! ### Whole runs -/

/-- A run that has ended made turns and then stopped. -/
theorem exists_stops (hdrive : session.drive host fuel budget = .ok outcome) :
    ∃ last, Drives host (budget, session) last ∧ last.2.Stops host last.1 outcome := by
  induction fuel generalizing budget session with
  | zero =>
      cases hover : session.isOver budget with
      | true =>
          rw [drive_of_over hover] at hdrive
          cases hdrive
          exact ⟨_, .refl, .finished hover⟩
      | false =>
          rw [drive, if_neg (by simp [hover])] at hdrive
          cases hdrive
  | succ fuel ih =>
      cases hover : session.isOver budget with
      | true =>
          rw [drive_of_over hover] at hdrive
          cases hdrive
          exact ⟨_, .refl, .finished hover⟩
      | false =>
          rw [drive_of_going hover] at hdrive
          match hstep : session.step host fuel with
          | .error fault => rw [hstep] at hdrive; cases hdrive
          | .ok (some failure, last) =>
              rw [hstep] at hdrive
              cases hdrive
              exact ⟨_, .refl, .refused hover hstep⟩
          | .ok (none, stepped) =>
              rw [hstep] at hdrive
              match hpause : stepped.pause host (budget.map (· - 1)) with
              | (some failure, last) =>
                  simp only [bind, Except.bind, hpause] at hdrive
                  cases hdrive
                  exact ⟨_, .refl, .aborted hover hstep hpause⟩
              | (none, next) =>
                  simp only [bind, Except.bind, hpause] at hdrive
                  obtain ⟨last, hdrives, hstops⟩ := ih hdrive
                  exact ⟨last, .head ⟨hover, rfl, fuel, stepped, hstep, hpause⟩ hdrives, hstops⟩

theorem Drives.finishes_drive (hdrives : Drives host before after)
    (hstops : after.2.Stops host after.1 outcome) :
    Finishes (fun fuel => before.2.drive host fuel before.1) outcome := by
  induction hdrives using Relation.ReflTransGen.head_induction_on with
  | refl => exact hstops.finishes_drive
  | head hturns _ ih => exact hturns.finishes_drive ih

/-- A run ends with an outcome exactly if turns lead to where it stops with it. -/
theorem drive_finishes_iff :
    Finishes (fun fuel => session.drive host fuel budget) outcome ↔
      ∃ last, Drives host (budget, session) last ∧ last.2.Stops host last.1 outcome := by
  constructor
  · intro hfinishes
    obtain ⟨fuel, hdrive⟩ := hfinishes.exists_ok
    exact exists_stops hdrive
  · rintro ⟨last, hdrives, hstops⟩
    exact hdrives.finishes_drive hstops

/-- A run that is not logged is over where its turns are. -/
theorem Drives.finishes_run (hdrives : Drives host before after)
    (hover : after.2.isOver after.1 = true) :
    Finishes (fun fuel => before.2.run host fuel before.1 false) (none, after.2) :=
  (hdrives.finishes_drive (.finished hover)).bind (.pure _)

end LambdaMachine.Session
