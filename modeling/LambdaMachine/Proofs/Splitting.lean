import LambdaMachine.Proofs.Contracting
import LambdaMachine.Proofs.Recording

/-!
# Runs in parts

With a host that never asks to stop, a run makes its first step and then is the run from there
under what is left of the budget, but for the pause between the two (`ends_iff_first`). So a
budget can be split anywhere, and a run without a budget is a run of single steps
(`run_splits`). A pause leaves nothing behind but its number in the journal.
-/

namespace LambdaMachine

variable {σ : Type}

theorem Host.Images.refl (host : Host σ) : host.Images id host where
  put _ _ := rfl
  shows _ := rfl
  get _ _ := rfl
  random _ := rfl
  log _ _ := rfl
  report _ _ := rfl
  sleep _ := rfl
  trace _ _ := rfl

namespace Session

/-- A run under this budget that is not logged ends with this outcome. -/
def Ends (host : Host σ) (budget : Option Nat) (session : Session σ) (outcome : Outcome σ) :
    Prop :=
  Finishes (fun fuel => session.run host fuel budget false) outcome

/-- The session of a machine that had paused so often before. -/
def behind (pauses : Nat) (session : Session (σ × Journal)) : Session (σ × Journal) :=
  session.map (Prod.map id (Journal.behind pauses))

section Patient

variable {host : Host σ} {session stepped next last : Session σ} {budget : Option Nat}
  {outcome reached : Outcome σ} {failure : Failure}

/-- What a run makes of where its turns have ended. -/
def conclude (host : Host σ) (fuel : Nat) : Outcome σ → Except Fault (Outcome σ)
  | (some failure, session) => do return (some failure, ← session.fail host fuel failure)
  | (none, session) => return (none, session)

theorem ends_iff : session.Ends host budget outcome ↔
    ∃ reached, Finishes (fun fuel => session.drive host fuel budget) reached ∧
      Finishes (fun fuel => conclude host fuel reached) outcome := by
  have hrun : ∀ fuel, session.run host fuel budget false =
      session.drive host fuel budget >>= conclude host fuel := fun _ => rfl
  unfold Ends
  simp only [hrun]
  exact Finishes.bind_iff fun hfuel => drive_mono hfuel host budget session

theorem ends_of_over (hover : session.isOver budget = true) :
    session.Ends host budget outcome ↔ outcome = (none, session) := by
  have hdrive : ∀ fuel, session.run host fuel budget false = pure (none, session) := by
    intro fuel
    rw [run, drive_of_over hover]
    rfl
  unfold Ends
  simp only [hdrive]
  exact Finishes.pure_iff

/-- A run that has failed leaves the machine ended. -/
theorem ended_of_conclude
    (hconclude : Finishes (fun fuel => conclude host fuel (some failure, last)) outcome) :
    ∃ next, outcome = (some failure, next) ∧ next.machine.ended = true := by
  obtain ⟨fuel, hconclude⟩ := hconclude.exists_ok
  obtain ⟨next, hfail, heq⟩ := bind_eq_ok_iff.mp hconclude
  cases heq
  refine ⟨next, rfl, ?_⟩
  rw [fail_machine hfail]
  rfl

/-- Turns that end without a budget end alike under a budget that is large enough. -/
theorem drive_of_unbounded {fuel : Nat} (hdrive : session.drive host fuel none = .ok reached) :
    session.drive host fuel (some (fuel + 1)) = .ok reached ∧
      (reached.1 = none → reached.2.machine.ended = true) := by
  have hdone : ∀ (session : Session σ) (fuel : Nat), session.isOver none = true →
      session.drive host fuel none = .ok reached →
      session.drive host fuel (some (fuel + 1)) = .ok reached ∧
        (reached.1 = none → reached.2.machine.ended = true) := by
    intro session fuel hover hdrive
    rw [drive_of_over hover] at hdrive
    cases hdrive
    refine ⟨drive_of_over ((isOver_some_succ session fuel).trans hover) fuel, fun _ => ?_⟩
    simpa [isOver] using hover
  induction fuel generalizing session with
  | zero =>
      cases hover : session.isOver none with
      | true => exact hdone session 0 hover hdrive
      | false =>
          rw [drive, if_neg (by simp [hover])] at hdrive
          cases hdrive
  | succ fuel ih =>
      cases hover : session.isOver none with
      | true => exact hdone session (fuel + 1) hover hdrive
      | false =>
          -- What is left of the budget exceeds the fuel, so it is not used up at any pause.
          rw [drive_of_going hover] at hdrive
          obtain ⟨⟨failure, stepped⟩, hstep, hrest⟩ := bind_eq_ok_iff.mp hdrive
          rw [drive_of_going ((isOver_some_succ session _).trans hover), hstep]
          cases failure with
          | some failure =>
              cases hrest
              refine ⟨rfl, fun hnone => ?_⟩
              cases hnone
          | none =>
              simp only [bind, Except.bind, Option.map_some, Nat.add_sub_cancel, pause_some_succ]
              simp only [Option.map_none] at hrest
              cases hpaused : stepped.pause host none with
              | mk failure next =>
                  rw [hpaused] at hrest
                  cases failure with
                  | some failure =>
                      cases hrest
                      refine ⟨rfl, fun hnone => ?_⟩
                      cases hnone
                  | none => exact ih hrest

/-- A run that ends without a budget ends alike under some budget, and has ended the machine. -/
theorem exists_budget (hends : session.Ends host none outcome) :
    ∃ n, session.Ends host (some n) outcome ∧ outcome.2.machine.ended = true := by
  obtain ⟨⟨failure, last⟩, hdrive, hconclude⟩ := ends_iff.mp hends
  obtain ⟨fuel, hdrive⟩ := hdrive.exists_ok
  obtain ⟨hbounded, hended⟩ := drive_of_unbounded hdrive
  refine ⟨fuel + 1, ends_iff.mpr ⟨_, ?_, hconclude⟩, ?_⟩
  · exact .of_ok (fun hfuel => drive_mono hfuel host _ session) hbounded
  · cases failure with
    | some failure =>
        obtain ⟨last, rfl, hlast⟩ := ended_of_conclude hconclude
        exact hlast
    | none =>
        obtain rfl : outcome = (none, last) := Finishes.pure_iff.mp hconclude
        exact hended rfl

/-- What comes behind a step: the end of the run if the step has failed, else a pause if there is
a further step, and the run from there. -/
def Follows (host : Host σ) (budget : Option Nat) (stepped outcome : Outcome σ) : Prop :=
  match stepped with
  | (some failure, last) => Finishes (fun fuel => conclude host fuel (some failure, last)) outcome
  | (none, next) =>
      Ends host budget
        (if next.isOver budget then next else ⟨next.machine, (host.sleep next.world).2⟩) outcome

variable (hpatient : ∀ world, (host.sleep world).1 = false)
include hpatient

theorem pause_of_patient (budget : Option Nat) (session : Session σ) :
    session.pause host budget =
      (none, if session.isOver budget then session
        else ⟨session.machine, (host.sleep session.world).2⟩) := by
  unfold pause
  split
  · rfl
  · simp [hpatient]

/-- A run makes a step and goes on behind it. -/
theorem ends_iff_step (hgoing : session.isOver budget = false) :
    session.Ends host budget outcome ↔
      ∃ stepped, Finishes (fun fuel => session.step host fuel) stepped ∧
        Follows host (budget.map (· - 1)) stepped outcome := by
  have hdrive : ∀ reached, Finishes (fun fuel => session.drive host fuel budget) reached ↔
      ∃ stepped, Finishes (fun fuel => session.step host fuel) stepped ∧
        match stepped with
        | (some failure, last) => reached = (some failure, last)
        | (none, next) => Finishes (fun fuel => drive host fuel (budget.map (· - 1))
            (if next.isOver (budget.map (· - 1)) then next
              else ⟨next.machine, (host.sleep next.world).2⟩)) reached := by
    intro reached
    rw [← Finishes.succ_iff]
    simp only [drive_of_going hgoing, pause_of_patient hpatient]
    rw [Finishes.bind_iff fun hfuel => step_mono hfuel host session]
    refine exists_congr fun stepped => and_congr_right fun _ => ?_
    obtain ⟨failure, next⟩ := stepped
    cases failure with
    | some failure => exact Finishes.pure_iff
    | none => rfl
  rw [ends_iff]
  simp only [hdrive]
  constructor
  · rintro ⟨reached, ⟨⟨failure, next⟩, hstep, hreached⟩, hconclude⟩
    refine ⟨(failure, next), hstep, ?_⟩
    cases failure with
    | some failure =>
        obtain rfl : reached = (some failure, next) := hreached
        exact hconclude
    | none => exact ends_iff.mpr ⟨reached, hreached, hconclude⟩
  · rintro ⟨⟨failure, next⟩, hstep, hfollows⟩
    cases failure with
    | some failure => exact ⟨(some failure, next), ⟨_, hstep, rfl⟩, hfollows⟩
    | none =>
        obtain ⟨reached, hreached, hconclude⟩ := ends_iff.mp hfollows
        exact ⟨reached, ⟨_, hstep, hreached⟩, hconclude⟩

/-- Under a budget of one step there is no pause. -/
theorem ends_one_iff (hgoing : session.machine.ended = false) :
    session.Ends host (some 1) outcome ↔
      ∃ stepped, Finishes (fun fuel => session.step host fuel) stepped ∧
        match stepped with
        | (some failure, last) =>
            Finishes (fun fuel => conclude host fuel (some failure, last)) outcome
        | (none, next) => outcome = (none, next) := by
  rw [ends_iff_step hpatient (by simp [isOver, hgoing])]
  refine exists_congr fun stepped => and_congr_right fun _ => ?_
  obtain ⟨failure, next⟩ := stepped
  cases failure with
  | some failure => rfl
  | none =>
      have hover : next.isOver (some 0) = true := by simp [isOver]
      simp only [Follows, Option.map_some, Nat.sub_self, hover, if_true]
      exact ends_of_over hover

end Patient

/-- Runs of single steps are made until the machine has ended. They end with the first failure, if
there is one. -/
inductive Repeats (host : Host σ) : Session σ → Outcome σ → Prop where
  | ended {session} (hended : session.machine.ended = true) : Repeats host session (none, session)
  | again {session first middle second last} (hgoing : session.machine.ended = false)
      (hone : session.Ends host (some 1) (first, middle))
      (hrest : Repeats host middle (second, last)) : Repeats host session (first <|> second, last)

/-- A run of a single step that does not fail. -/
structure StepsOnce (host : Host σ) (session next : Session σ) : Prop where
  going : session.machine.ended = false
  ends : session.Ends host (some 1) (none, next)

/-! ### Journals of runs in parts -/

section Recorded

variable {host : Host σ} {session middle last : Session (σ × Journal)} {budget : Option Nat}
  {outcome : Outcome (σ × Journal)}

theorem behind_zero (session : Session (σ × Journal)) : session.behind 0 = session := rfl

theorem behind_behind (pauses more : Nat) (session : Session (σ × Journal)) :
    (session.behind pauses).behind more = session.behind (pauses + more) := by
  simp only [behind, map, Prod.map, Journal.behind, Nat.add_assoc, id]

/-- Pauses made before are still there in the end. -/
theorem ends_behind (pauses : Nat) :
    (session.behind pauses).Ends host.recording budget outcome ↔
      ∃ failure last, session.Ends host.recording budget (failure, last) ∧
        outcome = (failure, last.behind pauses) := by
  have himages := (Host.Images.refl host).recording pauses
  constructor
  · rintro ⟨bound, hrun⟩
    obtain ⟨⟨failure, last⟩, hrun', rfl⟩ :=
      himages.run_eq_ok_iff.mp (hrun bound (Nat.le_refl bound))
    exact ⟨failure, last, .of_ok (fun hfuel => run_mono hfuel _ _ _ _) hrun', rfl⟩
  · rintro ⟨failure, last, hends, rfl⟩
    exact himages.finishes_run hends

variable (hsleep : ∀ world, host.sleep world = (false, world))
include hsleep

theorem patient_recording (world : σ × Journal) : (host.recording.sleep world).1 = false := by
  simp [Host.recording, hsleep]

theorem slept_recording (session : Session (σ × Journal)) :
    (⟨session.machine, (host.recording.sleep session.world).2⟩ : Session (σ × Journal)) =
      session.behind 1 := by
  simp only [Host.recording, hsleep]
  rfl

/-- Going on behind a step leaves one pause more, if there is a further step. -/
theorem follows_iff {next : Session (σ × Journal)} :
    Follows host.recording budget (none, next) outcome ↔
      ∃ failure last, next.Ends host.recording budget (failure, last) ∧
        outcome = (failure, last.behind (if next.isOver budget then 0 else 1)) := by
  simp only [Follows, slept_recording hsleep]
  split
  next hover =>
      constructor
      · intro hends
        exact ⟨outcome.1, outcome.2, hends, rfl⟩
      · rintro ⟨failure, last, hends, rfl⟩
        exact hends
  next hover => exact ends_behind 1

/-- A run is its first step and the run from there, but for the pause between the two. -/
theorem ends_iff_first (hgoing : session.isOver budget = false) :
    session.Ends host.recording budget outcome ↔
      ∃ first middle second last,
        session.Ends host.recording (some 1) (first, middle) ∧
        middle.Ends host.recording (budget.map (· - 1)) (second, last) ∧
        outcome = (first <|> second,
          last.behind (if middle.isOver (budget.map (· - 1)) then 0 else 1)) := by
  have hpatient := patient_recording hsleep
  have hended : session.machine.ended = false := by
    simp only [isOver, Bool.or_eq_false_iff] at hgoing
    exact hgoing.1
  simp only [ends_iff_step hpatient hgoing, ends_one_iff hpatient hended]
  constructor
  · rintro ⟨⟨failure, next⟩, hstep, hfollows⟩
    cases failure with
    | some failure =>
        obtain ⟨middle, rfl, hmiddle⟩ := ended_of_conclude hfollows
        have hover : middle.isOver (budget.map (· - 1)) = true := by simp [isOver, hmiddle]
        refine ⟨some failure, middle, none, middle, ⟨_, hstep, hfollows⟩,
          (ends_of_over hover).mpr rfl, ?_⟩
        rw [if_pos hover, behind_zero]
        rfl
    | none =>
        obtain ⟨second, last, hends, rfl⟩ := (follows_iff hsleep).mp hfollows
        exact ⟨none, next, second, last, ⟨_, hstep, rfl⟩, hends, rfl⟩
  · rintro ⟨first, middle, second, last, ⟨⟨failure, next⟩, hstep, hfirst⟩, hends, rfl⟩
    refine ⟨(failure, next), hstep, ?_⟩
    cases failure with
    | some failure =>
        obtain ⟨_, heq, hmiddle⟩ := ended_of_conclude hfirst
        cases heq
        have hover : middle.isOver (budget.map (· - 1)) = true := by simp [isOver, hmiddle]
        cases (ends_of_over hover).mp hends
        rw [if_pos hover, behind_zero]
        exact hfirst
    | none =>
        cases hfirst
        exact (follows_iff hsleep).mpr ⟨second, last, hends, rfl⟩

/-! ### Splitting a budget -/

/-- How many pauses fewer two runs make than one: if both may make a step, and the first has
not ended the machine, there is none between them. -/
def between (a b : Nat) (middle : Session (σ × Journal)) : Nat :=
  if 0 < a ∧ 0 < b ∧ middle.machine.ended = false then 1 else 0

omit hsleep in
/-- The pause behind a first step is one of the part that the next step belongs to, if it is not
between the two parts. -/
theorem between_succ {first : Option Failure} {next : Session (σ × Journal)} {a : Nat} (b : Nat)
    (hends : next.Ends host.recording (some a) (first, middle)) :
    between a b middle + (if next.isOver (some (a + b)) then 0 else 1) =
      (if next.isOver (some a) then 0 else 1) + between (a + 1) b middle := by
  cases hended : next.machine.ended with
  | true =>
      cases (ends_of_over (by simp [isOver, hended])).mp hends
      simp [between, isOver, hended]
  | false =>
      rcases Nat.eq_zero_or_pos a with rfl | hpos
      · cases (ends_of_over (by simp [isOver])).mp hends
        by_cases hzero : b = 0 <;> simp [between, isOver, hended, hzero, Nat.pos_iff_ne_zero]
      · have hzero : a ≠ 0 := Nat.ne_of_gt hpos
        simp [between, isOver, hended, hzero, hpos, Nat.add_comm]

/-- A run under a budget is two runs under its parts, but for the pause between these. -/
theorem ends_add_iff (a b : Nat) :
    session.Ends host.recording (some (a + b)) outcome ↔
      ∃ first middle second last,
        session.Ends host.recording (some a) (first, middle) ∧
        middle.Ends host.recording (some b) (second, last) ∧
        outcome = (first <|> second, last.behind (between a b middle)) := by
  induction a generalizing session outcome with
  | zero =>
      have hover : session.isOver (some 0) = true := by simp [isOver]
      simp only [ends_of_over hover, between, Nat.lt_irrefl, false_and, if_false, behind_zero,
        Nat.zero_add]
      constructor
      · intro hends
        exact ⟨none, session, outcome.1, outcome.2, rfl, hends, rfl⟩
      · rintro ⟨first, middle, second, last, heq, hends, rfl⟩
        cases heq
        exact hends
  | succ a ih =>
      cases hended : session.machine.ended with
      | true =>
          have hover : ∀ n, session.isOver (some n) = true := fun n => by simp [isOver, hended]
          simp only [ends_of_over (hover _)]
          constructor
          · rintro rfl
            refine ⟨none, session, none, session, rfl, (ends_of_over (hover b)).mpr rfl, ?_⟩
            simp [between, hended, behind_zero]
          · rintro ⟨first, middle, second, last, heq, hends, rfl⟩
            cases heq
            cases (ends_of_over (hover b)).mp hends
            simp [between, hended, behind_zero]
      | false =>
          have hgoing : ∀ n, session.isOver (some (n + 1)) = false :=
            fun n => by simp [isOver, hended]
          -- The first step is taken off both sides. What is left of the first part is split from
          -- the second one by the induction, and the pause behind the first step goes along.
          rw [Nat.add_right_comm, ends_iff_first hsleep (hgoing (a + b))]
          simp only [Option.map_some, Nat.add_sub_cancel, ih]
          constructor
          · rintro ⟨first, next, _, _, hone, ⟨second, middle, third, last, hmiddle, hlast, heq⟩,
              rfl⟩
            cases heq
            have hfirst := (ends_iff_first hsleep (hgoing a)).mpr
              ⟨first, next, second, middle, hone, hmiddle, rfl⟩
            refine ⟨first <|> second, _, third, _, hfirst,
              (ends_behind _).mpr ⟨third, last, hlast, rfl⟩, ?_⟩
            rw [behind_behind, behind_behind, between_succ b hmiddle]
            cases first <;> rfl
          · rintro ⟨_, _, third, _, hends, hrest, rfl⟩
            obtain ⟨first, next, second, middle, hone, hmiddle, heq⟩ :=
              (ends_iff_first hsleep (hgoing a)).mp hends
            cases heq
            obtain ⟨third, last, hlast, heq⟩ := (ends_behind _).mp hrest
            cases heq
            replace hmiddle : next.Ends host.recording (some a) (second, middle) := hmiddle
            refine ⟨first, next, _, _, hone, ⟨second, middle, third, last, hmiddle, hlast, rfl⟩, ?_⟩
            rw [behind_behind, behind_behind, between_succ b hmiddle]
            cases first <;> rfl

/-! ### Single steps -/

/-- If a run under a budget has ended the machine, runs of single steps end as it does. -/
theorem exists_repeats {n : Nat} (hends : session.Ends host.recording (some n) outcome)
    (hended : outcome.2.machine.ended = true) :
    ∃ last pauses, Repeats host.recording session (outcome.1, last) ∧
      outcome.2 = last.behind pauses := by
  induction n generalizing session outcome with
  | zero =>
      cases (ends_of_over (by simp [isOver])).mp hends
      exact ⟨session, 0, .ended hended, rfl⟩
  | succ n ih =>
      cases hover : session.isOver (some (n + 1)) with
      | true =>
          cases (ends_of_over hover).mp hends
          exact ⟨session, 0, .ended hended, rfl⟩
      | false =>
          obtain ⟨first, middle, second, last, hone, hrest, rfl⟩ :=
            (ends_iff_first hsleep hover).mp hends
          obtain ⟨final, pauses, hrepeats, rfl⟩ := ih hrest hended
          refine ⟨final, _, .again ?_ hone hrepeats, behind_behind _ _ _⟩
          simpa [isOver] using hover

/-- Where runs of single steps end, a run without a budget does. -/
theorem Repeats.exists_ends (hrepeats : Repeats host.recording session outcome) :
    ∃ pauses, session.Ends host.recording none (outcome.1, outcome.2.behind pauses) := by
  induction hrepeats with
  | ended hended => exact ⟨0, (ends_of_over (by simp [isOver, hended])).mpr rfl⟩
  | @again session first middle second last hgoing hone _ ih =>
      obtain ⟨pauses, hrest⟩ := ih
      refine ⟨pauses + if middle.isOver none then 0 else 1,
        (ends_iff_first hsleep (by simp [isOver, hgoing])).mpr
          ⟨first, middle, second, _, hone, hrest, ?_⟩⟩
      rw [behind_behind]
      rfl

theorem stepsOnce_iff {next : Session (σ × Journal)} :
    StepsOnce host.recording session next ↔ session.machine.ended = false ∧
      Finishes (fun fuel => session.step host.recording fuel) (none, next) := by
  have hpatient := patient_recording hsleep
  constructor
  · intro honce
    obtain ⟨⟨failure, stepped⟩, hstep, hends⟩ := (ends_one_iff hpatient honce.going).mp honce.ends
    refine ⟨honce.going, ?_⟩
    cases failure with
    | some failure =>
        obtain ⟨_, heq, _⟩ := ended_of_conclude hends
        cases heq
    | none =>
        cases hends
        exact hstep
  · intro h
    exact ⟨h.1, (ends_one_iff hpatient h.1).mpr ⟨(none, next), h.2, rfl⟩⟩

omit hsleep in
theorem stepsOnce_behind_iff {next : Session (σ × Journal)} (pauses : Nat) :
    StepsOnce host.recording (session.behind pauses) next ↔
      ∃ last, StepsOnce host.recording session last ∧ next = last.behind pauses := by
  constructor
  · intro honce
    obtain ⟨failure, last, hends, heq⟩ := (ends_behind pauses).mp honce.ends
    cases heq
    exact ⟨last, ⟨honce.going, hends⟩, rfl⟩
  · rintro ⟨last, honce, rfl⟩
    exact ⟨honce.going, (ends_behind pauses).mpr ⟨none, last, honce.ends, rfl⟩⟩

/-- A turn of a run without a budget is a run of a single step, and a pause unless the machine has
ended with that. -/
theorem turns_iff_stepsOnce {after : Option Nat × Session (σ × Journal)} :
    Turns host.recording (none, session) after ↔
      ∃ next, StepsOnce host.recording session next ∧
        after = (none, next.behind (if next.isOver none then 0 else 1)) := by
  have hpause : ∀ next : Session (σ × Journal), next.pause host.recording none =
      (none, next.behind (if next.isOver none then 0 else 1)) := by
    intro next
    rw [pause_of_patient (patient_recording hsleep), slept_recording hsleep]
    split <;> rfl
  simp only [stepsOnce_iff hsleep]
  constructor
  · rintro ⟨hgoing, hbudget, fuel, next, hstep, hpaused⟩
    obtain ⟨_, last⟩ := after
    obtain rfl : _ = none := hbudget
    rw [hpause] at hpaused
    cases hpaused
    exact ⟨next, ⟨by simpa [isOver] using hgoing, finishes_of_step hstep⟩, rfl⟩
  · rintro ⟨next, ⟨hgoing, hstep⟩, rfl⟩
    obtain ⟨fuel, hstep⟩ := hstep.exists_ok
    exact ⟨by simpa [isOver] using hgoing, rfl, fuel, next, hstep, hpause next⟩

/-- Runs of single steps pass where a run without a budget does, but for the pauses. -/
theorem exists_stepsOnce {reached : Option Nat × Session (σ × Journal)}
    (hdrives : Drives host.recording (none, session) reached) :
    ∃ last pauses, Relation.ReflTransGen (StepsOnce host.recording) session last ∧
      reached = (none, last.behind pauses) := by
  induction hdrives with
  | refl => exact ⟨session, 0, .refl, rfl⟩
  | tail _ hturns ih =>
      obtain ⟨last, pauses, hsteps, rfl⟩ := ih
      obtain ⟨_, hbehind, rfl⟩ := (turns_iff_stepsOnce hsleep).mp hturns
      obtain ⟨next, honce, rfl⟩ := (stepsOnce_behind_iff pauses).mp hbehind
      exact ⟨next, _, hsteps.tail honce, by rw [behind_behind]⟩

/-- A run without a budget passes where runs of single steps do, but for the pauses. -/
theorem exists_drives (hsteps : Relation.ReflTransGen (StepsOnce host.recording) session last) :
    ∃ pauses, Drives host.recording (none, session) (none, last.behind pauses) := by
  induction hsteps with
  | refl => exact ⟨0, .refl⟩
  | @tail last next _ honce ih =>
      obtain ⟨pauses, hdrives⟩ := ih
      have hbehind := (stepsOnce_behind_iff pauses).mpr ⟨next, honce, rfl⟩
      refine ⟨pauses + if next.isOver none then 0 else 1, hdrives.tail ?_⟩
      exact (turns_iff_stepsOnce hsleep).mpr ⟨_, hbehind, by rw [behind_behind]; rfl⟩

/-! ### The law -/

end Recorded

/-- A budget can be split anywhere: the run under the whole ends as the runs under its parts do,
after the same contacts, with the first of their failures, and with one pause more if both may
make a step and the machine has not ended between them. So runs of single steps, made until the
machine has ended, end as a run without a budget does, but for the pauses; and if there is no end,
they pass where it does. -/
theorem run_splits {host : Host σ} (hsleep : ∀ world, host.sleep world = (false, world))
    (session : Session σ) :
    (∀ (a b : Nat) (outcome : Outcome (σ × Journal)),
      session.recorded.Ends host.recording (some (a + b)) outcome ↔
        ∃ first middle second last,
          session.recorded.Ends host.recording (some a) (first, middle) ∧
          middle.Ends host.recording (some b) (second, last) ∧
          outcome = (first <|> second, last.behind (between a b middle))) ∧
    (∀ (failure : Option Failure) (machine : Machine) (world : σ) (contacts : List Contact),
      (∃ pauses, session.recorded.Ends host.recording none
        (failure, ⟨machine, (world, ⟨contacts, pauses⟩)⟩)) ↔
      ∃ pauses, Repeats host.recording session.recorded
        (failure, ⟨machine, (world, ⟨contacts, pauses⟩)⟩)) ∧
    ∀ (machine : Machine) (world : σ) (contacts : List Contact),
      (∃ pauses, Drives host.recording (none, session.recorded)
        (none, ⟨machine, (world, ⟨contacts, pauses⟩)⟩)) ↔
      ∃ pauses, Relation.ReflTransGen (StepsOnce host.recording) session.recorded
        ⟨machine, (world, ⟨contacts, pauses⟩)⟩ := by
  refine ⟨fun a b outcome => ends_add_iff hsleep a b,
    fun failure machine world contacts => ⟨?_, ?_⟩, fun machine world contacts => ⟨?_, ?_⟩⟩
  · rintro ⟨pauses, hends⟩
    obtain ⟨n, hends, hended⟩ := exists_budget hends
    obtain ⟨last, more, hrepeats, heq⟩ := exists_repeats hsleep hends hended
    cases heq
    exact ⟨_, hrepeats⟩
  · rintro ⟨pauses, hrepeats⟩
    obtain ⟨more, hends⟩ := hrepeats.exists_ends hsleep
    exact ⟨_, hends⟩
  · rintro ⟨pauses, hdrives⟩
    obtain ⟨last, more, hsteps, heq⟩ := exists_stepsOnce hsleep hdrives
    cases heq
    exact ⟨_, hsteps⟩
  · rintro ⟨pauses, hsteps⟩
    obtain ⟨more, hdrives⟩ := exists_drives hsleep hsteps
    exact ⟨_, hdrives⟩

/-- The identity is applied to its value at the unit, and the run is cut where the machine has
gone down to this value. -/
theorem run_splits_identity_twice : ∃ (session : Session (List Call))
    (middle last : Session (List Call × Journal)),
    (⟨.empty, []⟩ : Session (List Call)).load (Answers.host ⟨fun _ => none, fun _ => 0⟩) 0
      ",'.,'.\"" false = .ok (none, session) ∧
    session.recorded.Ends (Answers.host ⟨fun _ => none, fun _ => 0⟩).recording (some 1)
      (none, middle) ∧
    middle.machine.ended = false ∧
    middle.Ends (Answers.host ⟨fun _ => none, fun _ => 0⟩).recording (some 2) (none, last) ∧
    last.machine.ended = true ∧ last.world.2.pauses = 1 ∧
    session.recorded.Ends (Answers.host ⟨fun _ => none, fun _ => 0⟩).recording (some (1 + 2))
      (none, last.behind 1) := by
  obtain ⟨nodes, left, hload, hfirst, hsecond⟩ : ∃ nodes left : Program,
      (⟨.empty, []⟩ : Session (List Call)).load (Answers.host ⟨fun _ => none, fun _ => 0⟩) 0
        ",'.,'.\"" false = .ok (none, ⟨⟨nodes, ⟨some 6, some 6, []⟩, {}, {}⟩, []⟩) ∧
      run (Answers.host ⟨fun _ => none, fun _ => 0⟩).recording 9 (some 1) false
        ⟨⟨nodes, ⟨some 6, some 6, []⟩, {}, {}⟩, ([], {})⟩ =
          .ok (none, ⟨⟨nodes, ⟨some 6, some 5, [⟨6, .argument⟩]⟩, {}, {}⟩, ([], {})⟩) ∧
      run (Answers.host ⟨fun _ => none, fun _ => 0⟩).recording 9 (some 2) false
        ⟨⟨nodes, ⟨some 6, some 5, [⟨6, .argument⟩]⟩, {}, {}⟩, ([], {})⟩ =
          .ok (none, ⟨⟨left, ⟨some 4, none, []⟩, {}, {}⟩, ([], ⟨[], 1⟩)⟩) :=
    ⟨⟨#[some (.var 0), some (.lam 0), some (.var 0), some (.lam 2), some (.leaf .unit),
      some (.app 3 4), some (.app 1 5)], []⟩,
      ⟨#[none, none, none, none, some (.leaf .unit), none, none], [6, 1, 0, 5, 3, 2]⟩,
      by cbv, by cbv, by cbv⟩
  have hends := Finishes.of_ok (fun hfuel => run_mono hfuel _ _ _ _) hfirst
  have hends' := Finishes.of_ok (fun hfuel => run_mono hfuel _ _ _ _) hsecond
  exact ⟨_, _, _, hload, hends, rfl, hends', rfl, rfl,
    ((run_splits (fun _ => rfl) _).1 1 2 _).mpr ⟨none, _, none, _, hends, hends', rfl⟩⟩

end Session

end LambdaMachine
