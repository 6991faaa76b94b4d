import LambdaMachine.Proofs.Contracting
import LambdaMachine.Proofs.Reachable
import LambdaMachine.Proofs.Rereading

/-!
# Runs under a budget

Under a budget of steps no more turns are made than the budget allows, and every turn ends,
with one exception: to output a number a step counts with the operand, which is a term of the
program, and does so without a pause until the count ends. So a run under a budget ends
exactly if its turns do not come to an output whose operand counts without end
(`budgeted_run_ends_iff`).
-/

namespace LambdaMachine

namespace Term

/-- The function that applies its argument to itself. Applied to itself, it is evaluated for
ever. -/
def duplicator {α : Type} : Term α := .lam (.app (.var 0) (.var 0))

theorem diverges_counting_loop :
    Diverges Tally.Rule () (counting (.lam (.app duplicator duplicator) : Term Atom)) := by
  -- Every one of these terms is evaluated next after the one before, and the last one again.
  refine ⟨fun _ term => term = counting (.lam (.app duplicator duplicator) : Term Atom) ∨
    term = .app (.lam (.app duplicator duplicator)) (.leaf .increment) ∨
    term = .app duplicator duplicator, ?_, .inl rfl⟩
  rintro _ _ (rfl | rfl | rfl)
  · exact ⟨_, _, rfl, .inl (.inr (.inl rfl))⟩
  · exact ⟨_, _, rfl, .inr (.inr ⟨_, _, _, _, _, _, .value rfl, .value rfl, .inr (.inr rfl)⟩)⟩
  · exact ⟨_, _, rfl, .inr (.inr ⟨_, _, _, _, _, _, .value rfl, .value rfl, .inr (.inr rfl)⟩)⟩

theorem stalled_loop : (app (.leaf .put) (.lam (.app duplicator duplicator))).Stalled := by
  refine ⟨_, rfl, rfl, ?_⟩
  rintro ⟨number, outcome, steps, heval, _⟩
  exact (diverges_iff Tally.rule_deterministic Tally.rule_total).mp diverges_counting_loop
    ⟨outcome, (), steps, heval⟩

end Term

namespace Session

variable {σ : Type} {host : Host σ} {session : Session σ} {budget : Option Nat}
  {outcome : Outcome σ} {before after last : Option Nat × Session σ} {n : Nat}

/-! ### Steps without an end -/

/-- The session is to output a number that counts without end. -/
def Stalls (session : Session σ) : Prop :=
  ∃ layers term, session.Shows (.going layers term) ∧ term.Stalled

theorem Stalls.step_eq (h : session.Stalls) (host : Host σ) (fuel : Nat) :
    session.step host fuel = .error .outOfFuel := by
  obtain ⟨_, _, ⟨layers, redex, hat, rfl, rfl⟩, hstalled⟩ := h
  exact (At.hangs hat host hstalled).step_eq fuel

/-- Neither does a run end that is to make such a step. -/
theorem Stalls.run_eq (h : session.Stalls) (hgoing : session.isOver budget = false)
    (host : Host σ) (log : Bool) (fuel : Nat) :
    session.run host fuel budget log = .error .outOfFuel := by
  have hdrive : session.drive host fuel budget = .error .outOfFuel := by
    cases fuel with
    | zero => rw [drive, if_neg (by simp [hgoing])]
    | succ fuel =>
        rw [drive_of_going hgoing, h.step_eq]
        rfl
  rw [run, hdrive]
  rfl

/-- A step of a settled machine ends, unless it is to output a number that counts without end. -/
theorem finishes_step_or_stalls (h : session.machine.Settled) (host : Host σ) :
    (∃ outcome, Finishes (fun fuel => session.step host fuel) outcome) ∨ session.Stalls := by
  rcases h.ended_or_at with hredex | ⟨layers, redex, hat⟩
  · exact .inl ⟨_, .of_eq (step_of_ended hredex)⟩
  · rcases At.makes_or_stalled hat host with ⟨outcome, _, _, hstep, _⟩ | hstalled
    · exact .inl ⟨outcome, hstep⟩
    · exact .inr ⟨_, _, ⟨layers, redex, hat, rfl, rfl⟩, hstalled⟩

/-! ### Turns under a budget -/

/-- A turn takes one step off the budget. -/
theorem Turns.exists_budget (hturns : Turns host (some n, session) after) :
    ∃ m, n = m + 1 ∧ after.1 = some m := by
  cases n with
  | zero =>
      have hgoing := hturns.going
      simp [isOver] at hgoing
  | succ m => exact ⟨m, rfl, hturns.budget_eq⟩

/-- There are no more turns in a row than steps in the budget. -/
theorem length_le_of_isChain {chain : List (Option Nat × Session σ)}
    (hchain : List.IsChain (Turns host) ((some n, session) :: chain)) : chain.length ≤ n := by
  induction chain generalizing n session with
  | nil => exact Nat.zero_le n
  | cons after chain ih =>
      obtain ⟨budget, next⟩ := after
      obtain ⟨hturns, hrest⟩ := List.isChain_cons_cons.mp hchain
      obtain ⟨m, rfl, rfl⟩ := hturns.exists_budget
      exact Nat.succ_le_succ (ih hrest)

/-- Under a budget, turns lead to where the run stops or to a step without an end. -/
theorem exists_stops_or_stalls (h : session.machine.Settled) (host : Host σ) (n : Nat) :
    ∃ last, Drives host (some n, session) last ∧ ((∃ outcome, last.2.Stops host last.1 outcome) ∨
      last.2.isOver last.1 = false ∧ last.2.Stalls) := by
  induction n generalizing session with
  | zero => exact ⟨_, .refl, .inl ⟨_, .finished (by simp [isOver])⟩⟩
  | succ m ih =>
      cases hover : session.isOver (some (m + 1)) with
      | true => exact ⟨_, .refl, .inl ⟨_, .finished hover⟩⟩
      | false =>
          rcases finishes_step_or_stalls h host with ⟨⟨failure, stepped⟩, hstep⟩ | hstalls
          · obtain ⟨fuel, hstep⟩ := hstep.exists_ok
            cases failure with
            | some failure => exact ⟨_, .refl, .inl ⟨_, .refused hover hstep⟩⟩
            | none =>
                rcases hpause : stepped.pause host (some m) with ⟨paused, next⟩
                cases paused with
                | some failure => exact ⟨_, .refl, .inl ⟨_, .aborted hover hstep hpause⟩⟩
                | none =>
                    have hturns : Turns host (some (m + 1), session) (some m, next) :=
                      ⟨hover, rfl, fuel, stepped, hstep, hpause⟩
                    obtain ⟨last, hdrives, hend⟩ := ih (Drives.settled (.single hturns) h)
                    exact ⟨last, .head hturns hdrives, hend⟩
          · exact ⟨_, .refl, .inr ⟨hover, hstalls⟩⟩

/-! ### Runs under a budget -/

/-- Where a run stops no turn is made. -/
theorem Stops.not_turns (hstops : session.Stops host budget outcome) :
    ¬ Turns host (budget, session) after := by
  rintro ⟨hgoing, hbudget, _, stepped, hstep, hpause⟩
  cases hstops with
  | finished hover =>
      rw [hover] at hgoing
      cases hgoing
  | refused _ hstep' => cases (finishes_of_step hstep).det (finishes_of_step hstep')
  | aborted _ hstep' hpause' =>
      cases (finishes_of_step hstep).det (finishes_of_step hstep')
      rw [hbudget, hpause'] at hpause
      cases hpause

theorem Stalls.not_turns (hstalls : before.2.Stalls) : ¬ Turns host before after := by
  rintro ⟨_, _, fuel, _, hstep, _⟩
  rw [hstalls.step_eq] at hstep
  cases hstep

/-- A run does not stop where a step is without an end. -/
theorem Stalls.not_stops (hstalls : session.Stalls) (hgoing : session.isOver budget = false) :
    ¬ session.Stops host budget outcome := by
  intro hstops
  cases hstops with
  | finished hover =>
      rw [hover] at hgoing
      cases hgoing
  | refused _ hstep =>
      rw [hstalls.step_eq] at hstep
      cases hstep
  | aborted _ hstep _ =>
      rw [hstalls.step_eq] at hstep
      cases hstep

/-- Turns lead to one place only from which there is none. -/
theorem Drives.eq_of_not_turns {last' : Option Nat × Session σ}
    (hdrives : Drives host before last) (hlast : ∀ after, ¬ Turns host last after)
    (hdrives' : Drives host before last') (hlast' : ∀ after, ¬ Turns host last' after) :
    last = last' := by
  rcases Relation.ReflTransGen.total_of_right_unique turns_rightUnique hdrives hdrives' with
    hmore | hmore
  · rcases hmore.cases_head with heq | ⟨after, hturns, _⟩
    · exact heq
    · exact absurd hturns (hlast after)
  · rcases hmore.cases_head with heq | ⟨after, hturns, _⟩
    · exact heq.symm
    · exact absurd hturns (hlast' after)

/-- A run ends as it does from a later turn on. -/
theorem Drives.finishes_run_iff {budget' : Option Nat}
    (hdrives : Drives host (budget, session) (budget', next)) (log : Bool) :
    Finishes (fun fuel => session.run host fuel budget log) outcome ↔
      Finishes (fun fuel => next.run host fuel budget' log) outcome := by
  have hdrive : ∀ stopped, Finishes (fun fuel => session.drive host fuel budget) stopped ↔
      Finishes (fun fuel => next.drive host fuel budget') stopped := by
    intro stopped
    rw [drive_finishes_iff, drive_finishes_iff]
    constructor
    · rintro ⟨last, hreached, hstops⟩
      rcases Relation.ReflTransGen.total_of_right_unique turns_rightUnique hdrives hreached with
        hafter | hbefore
      · exact ⟨last, hafter, hstops⟩
      -- The run had stopped before, so it has come no further.
      · rcases hbefore.cases_head with rfl | ⟨_, hturns, _⟩
        · exact ⟨_, .refl, hstops⟩
        · exact absurd hturns hstops.not_turns
    · rintro ⟨last, hreached, hstops⟩
      exact ⟨last, hdrives.trans hreached, hstops⟩
  constructor
  · intro hrun
    obtain ⟨stopped, hstopped, hrest⟩ :=
      Finishes.of_bind (fun hfuel => drive_mono hfuel host budget session) hrun
    exact ((hdrive stopped).mp hstopped).bind hrest
  · intro hrun
    obtain ⟨stopped, hstopped, hrest⟩ :=
      Finishes.of_bind (fun hfuel => drive_mono hfuel host budget' next) hrun
    exact ((hdrive stopped).mpr hstopped).bind hrest

/-- A run ends once its turns do. -/
theorem finishes_run (h : session.machine.Settled) (log : Bool)
    (hdrives : Drives host (budget, session) last) (hstops : last.2.Stops host last.1 outcome) :
    ∃ ended, Finishes (fun fuel => session.run host fuel budget log) ended := by
  have hdrive := drive_finishes_iff.mpr ⟨last, hdrives, hstops⟩
  have hlistable := hstops.listable (hdrives.settled h)
  obtain ⟨failure, stopped⟩ := outcome
  cases failure with
  | some failure =>
      obtain ⟨next, hfail⟩ := finishes_fail hlistable host failure
      exact ⟨_, hdrive.bind (hfail.bind (.pure _))⟩
  | none =>
      cases log with
      | false => exact ⟨_, hdrive.bind (.pure _)⟩
      | true =>
          obtain ⟨text, hlisting⟩ := hlistable
          exact ⟨_, hdrive.bind ((finishes_logListing host hlisting stopped.world).bind (.pure _))⟩

/-- Under a budget of `n` steps no more than `n` turns are made, and a step is without an end
exactly if it is to output a number that counts without end. The run ends exactly if no such
step is to be made. -/
theorem budgeted_run_ends_iff (h : Reachable host session) (n : Nat) (log : Bool) :
    (∀ chain, List.IsChain (Turns host) ((some n, session) :: chain) → chain.length ≤ n) ∧
    (∀ last, Drives host (some n, session) last →
      ((∀ fuel, last.2.step host fuel = .error .outOfFuel) ↔ last.2.Stalls)) ∧
    ((∃ fuel outcome, session.run host fuel (some n) log = .ok outcome) ↔
      ∀ last, Drives host (some n, session) last → last.2.isOver last.1 = false →
        ¬ last.2.Stalls) := by
  refine ⟨fun chain => length_le_of_isChain, fun last hdrives =>
    ⟨fun hcut => ?_, fun hstalls => hstalls.step_eq host⟩, ?_, ?_⟩
  · rcases finishes_step_or_stalls (hdrives.settled h.settled) host with ⟨_, hstep⟩ | hstalls
    · obtain ⟨fuel, hstep⟩ := hstep.exists_ok
      rw [hcut fuel] at hstep
      cases hstep
    · exact hstalls
  · rintro ⟨fuel, outcome, hrun⟩ last hdrives hgoing hstalls
    obtain ⟨_, hdrive, _⟩ := run_eq_ok hrun
    obtain ⟨last', hdrives', hstops⟩ := exists_stops hdrive
    obtain rfl := hdrives.eq_of_not_turns (fun _ => hstalls.not_turns) hdrives'
      fun _ => hstops.not_turns
    exact hstalls.not_stops hgoing hstops
  · intro hnone
    obtain ⟨last, hdrives, ⟨outcome, hstops⟩ | ⟨hgoing, hstalls⟩⟩ :=
      exists_stops_or_stalls h.settled host n
    · obtain ⟨ended, hrun⟩ := finishes_run h.settled log hdrives hstops
      obtain ⟨fuel, hrun⟩ := hrun.exists_ok
      exact ⟨fuel, ended, hrun⟩
    · exact absurd hstalls (hnone last hdrives hgoing)

/-- The identity is applied to the unit under a budget of one step. -/
theorem budgeted_run_ends_identity : ∃ (session : Session (List Call)) (fuel : Nat)
    (outcome : Outcome (List Call)),
    (⟨.empty, []⟩ : Session (List Call)).load (Answers.host ⟨fun _ => none, fun _ => 0⟩) 0
      ",'.\"" false = .ok (none, session) ∧
    session.run (Answers.host ⟨fun _ => none, fun _ => 0⟩) fuel (some 1) false = .ok outcome := by
  obtain ⟨session, node, ref, body, argument, hload, hat, hbody, hargument⟩ :=
    exists_load_identity_unit (Answers.host ⟨fun _ => none, fun _ => 0⟩) ⟨.empty, []⟩
  have hbudget : some 1 ≠ some 0 := by decide
  obtain ⟨last, hturns, hover⟩ := hat.exists_turn (Answers.host ⟨fun _ => none, fun _ => 0⟩)
    hbudget (by rw [hargument]; rfl) (by rw [hbody, hargument]; rfl)
  have hnone : ∀ reached, Drives (Answers.host ⟨fun _ => none, fun _ => 0⟩) (some 1, session)
      reached → reached.2.isOver reached.1 = false → ¬ reached.2.Stalls := by
    intro reached hdrives hgoing hstalls
    rcases hdrives.cases_head with rfl | ⟨_, hfirst, hrest⟩
    · exact hstalls.not_turns hturns
    obtain rfl := hfirst.det hturns
    rcases hrest.cases_head with rfl | ⟨_, hsecond, _⟩
    · rw [hover] at hgoing
      cases hgoing
    · exact absurd hsecond.going (by simp [hover])
  obtain ⟨fuel, outcome, hrun⟩ :=
    (budgeted_run_ends_iff (.load .new (hload 0)) 1 false).2.2.mpr hnone
  exact ⟨session, fuel, outcome, hload 0, hrun⟩

theorem isProgram_loop : Source.IsProgram ",:',',. .',. .".toList
    (.app (.leaf .put) (.lam (.app .duplicator .duplicator))) :=
  @Arena.isProgram_plain_listing (.app 0 (.leaf 1 .put) (.lam 2 (.app 3
    (.lam 4 (.app 5 (.var 6 0) (.var 7 0))) (.lam 8 (.app 9 (.var 10 0) (.var 11 0))))))
    (by simp [Layout.term, Term.Closed, Term.ClosedUnder])
    (by simp [Layout.term, Term.Writable])

/-- Where an output is applied to a function whose body is evaluated without end, a run under a
budget of one step does not end. -/
theorem budget_of_one_without_end : ∃ session : Session (List Call),
    (⟨.empty, []⟩ : Session (List Call)).load (Answers.host ⟨fun _ => none, fun _ => 0⟩) 0
      ",:',',. .',. ." false = .ok (none, session) ∧
    ∀ fuel, session.run (Answers.host ⟨fun _ => none, fun _ => 0⟩) fuel (some 1) false =
      .error .outOfFuel := by
  obtain ⟨session, hload⟩ := exists_load isProgram_loop
    (Answers.host ⟨fun _ => none, fun _ => 0⟩) ⟨.empty, []⟩
  obtain ⟨_, hprogram, hshows, _⟩ := load_accepted (hload 0)
  obtain rfl := hprogram.det isProgram_loop
  rw [Term.Stage.enter_of_isApp rfl] at hshows
  have hstalls : session.Stalls := ⟨_, _, hshows, Term.stalled_loop⟩
  have hgoing : session.isOver (some 1) = false := by
    obtain ⟨_, _, hat, _⟩ := hshows
    exact At.isOver_eq hat (some 1)
  exact ⟨session, hload 0, hstalls.run_eq hgoing _ false⟩

end Session

end LambdaMachine
