import LambdaMachine.Proofs.Recording
import LambdaMachine.Proofs.Twins

/-!
# Failing runs

A step that is refused leaves the machine as it was, and has asked its host for nothing but the
input that was at its end. Only an operand that is no numeral is gone by then: a marker
stands in the place of the redex (`breaks_of_step`). The failure is reported and the text of
the program logged as it then stands, and behind these two contacts the machine is a
new one (`failure_resets`).
-/

namespace LambdaMachine

open Layout (Layer)

variable {σ : Type}

/-! ### Rules that refuse -/

/-- An evaluation fails only where a rule refuses. -/
theorem Term.Advances.exists_refused {α ε : Type} {rule : Term.Rule α ε σ}
    {layers : List (Term.Layer α)} {term : Term α} {state state' : σ} {error : ε}
    (hadvances : Term.Advances rule layers term state (.ended (.error error)) state') :
    ∃ head operand, rule state head operand (.error error) state' := by
  generalize hstage : (.ended (.error error) : Term.Stage α ε) = stage at hadvances
  have hfailure : stage.failure? = some error := by
    rw [← hstage]
    rfl
  cases hadvances with
  | function happ => cases hstage
  | argument hvalue happ => cases hstage
  | contract hvalue =>
      rw [Term.Stage.failure?_enter] at hfailure
      cases hfailure
  | @rule head operand outcome _ _ _ _ _ hrule =>
      cases outcome with
      | ok value =>
          rw [Term.Stage.finish, Term.Stage.failure?_resume] at hfailure
          cases hfailure
      | error error' =>
          cases hstage
          exact ⟨head, operand, hrule⟩

/-- A rule that refuses leaves the surroundings as they were, unless there was no more input. -/
theorem Atom.Rule.around_of_error {host : Host σ} {around around' : Surroundings σ}
    {head operand : Term Atom} {failure : Failure}
    (hrule : Atom.Rule host around head operand (.error failure) around') :
    failure ≠ .aborted ∧ around' = around ∨
      failure = .aborted ∧ around.splitter.owed = [] ∧
        ∃ world, host.get none around.world = (none, world) ∧
          around' = { around with world := world } := by
  cases hrule with
  | putFails _ => exact .inl ⟨nofun, rfl⟩
  | notNull _ _ => exact .inl ⟨nofun, rfl⟩
  | sendFails hsend =>
      refine .inl ⟨?_, rfl⟩
      rintro rfl
      unfold Surroundings.send at hsend
      split at hsend <;> cases hsend
  | sendMarker => exact .inl ⟨nofun, rfl⟩
  | notAFunction => exact .inl ⟨nofun, rfl⟩
  | getFails hreceive =>
      refine .inr ⟨rfl, ?_⟩
      unfold Surroundings.receive at hreceive
      split at hreceive
      next byte owed howed => cases hreceive
      next howed =>
          refine ⟨howed, ?_⟩
          split at hreceive
          next world hget =>
              cases hreceive
              exact ⟨world, hget, rfl⟩
          next character world hget => cases hreceive

/-- A call for input that is answered by none is noted. -/
theorem Host.Performs.journal_of_get {host : Host σ} {world world' : σ × Journal}
    (hperforms : host.recording.Performs [.get none] world world') :
    ∃ text, world'.2 = world.2.note (.get text none) := by
  generalize hcalls : [Call.get none] = calls at hperforms
  induction hperforms with
  | nil => cases hcalls
  | trace _ ih => exact ih hcalls
  | put => cases hcalls
  | @get text answer calls world world₁ world' hget hrest =>
      cases hcalls
      have hanswer : (host.get text world.1).1 = none := congrArg Prod.fst hget
      have hnoted : world₁.2 = world.2.note (.get text (host.get text world.1).1) :=
        (congrArg (fun given => given.2.2) hget).symm
      refine ⟨text, ?_⟩
      rw [hrest.eq_of_nil Prod.snd fun _ _ => rfl, hnoted, hanswer]
  | random => cases hcalls

namespace Session

/-! ### Turns that fail -/

/-- A turn of a run fails in one of these ways, and leaves this. -/
inductive Breaks (host : Host σ) (budget : Option Nat) (session : Session (σ × Journal)) :
    Failure → Session (σ × Journal) → Prop where
  /-- The step is refused, and nothing has changed. -/
  | refused {fuel failure last}
      (hstep : session.step host.recording fuel = .ok (some failure, last))
      (hnot : failure ≠ .notANumeral ∧ failure ≠ .aborted)
      (hmachine : last.machine = session.machine) (hjournal : last.world.2 = session.world.2) :
      Breaks host budget session failure last
  /-- The step finds no more input, and nothing has changed apart from the call for it. -/
  | unanswered {fuel text last}
      (hstep : session.step host.recording fuel = .ok (some .aborted, last))
      (hmachine : last.machine = session.machine)
      (hjournal : last.world.2 = session.world.2.note (.get text none)) :
      Breaks host budget session .aborted last
  /-- The step finds no numeral, and a marker stands in the place of the redex, which there is
  no more. -/
  | marked {fuel layers redex last}
      (hstep : session.step host.recording fuel = .ok (some .notANumeral, last))
      (hat : session.At layers redex) (hmarks : last.Marks (layers.map Layer.term))
      (haround : ∀ notes : List Call, last.around notes = session.around notes)
      (hjournal : last.world.2 = session.world.2) : Breaks host budget session .notANumeral last
  /-- The step is made, and the host asks to stop in the pause behind it. -/
  | stopped {fuel stepped last}
      (hstep : session.step host.recording fuel = .ok (none, stepped))
      (hgoing : stepped.isOver (budget.map (· - 1)) = false)
      (hsleep : host.sleep stepped.world.1 = (true, last.world.1))
      (hmachine : last.machine = stepped.machine)
      (hjournal : last.world.2 = stepped.world.2.pause) : Breaks host budget session .aborted last

variable {host : Host σ} {session last : Session (σ × Journal)} {budget : Option Nat}
  {failure : Failure} {fuel : Nat} {log : Bool}

/-- Where the program has stayed as it was and the unfinished characters have too, the machine
has. -/
theorem Stays.machine_eq {calls calls' : List Call} (h : session.Stays last)
    (haround : last.around calls = session.around calls') : last.machine = session.machine := by
  obtain ⟨⟨arena, cursor, assembler, splitter⟩, world⟩ := last
  obtain ⟨harena, hcursor⟩ := h
  have hassembler : assembler = _ := congrArg Surroundings.assembler haround
  have hsplitter : splitter = _ := congrArg Surroundings.splitter haround
  rw [hassembler, hsplitter]
  cases harena
  cases hcursor
  rfl

/-- What is left where a step is refused. -/
theorem breaks_of_step (h : session.machine.Settled)
    (hstep : session.step host.recording fuel = .ok (some failure, last)) :
    session.Breaks host budget failure last := by
  rcases h.ended_or_at with hnone | ⟨layers, redex, hat⟩
  · rw [step_of_ended hnone] at hstep
    cases hstep
  rcases At.step_cases hat host.recording with ⟨_, calls, stage, hfinishes, hmakes⟩ | hhangs
  · obtain rfl := hfinishes.det (finishes_of_step hstep)
    obtain rfl := eq_of_failure? hmakes.failure_eq.symm
    obtain ⟨answers, hexplains⟩ := Answers.exists_explaining calls
    obtain ⟨head, operand, hrule⟩ := (hmakes.advances answers [] hexplains).exists_refused
    obtain ⟨_, _, _, _, hstays⟩ := exists_reduces_of_step hstep rfl
    -- The calls of the step are those that the rule leaves in its surroundings.
    rcases hrule.around_of_error with ⟨hne, haround⟩ | ⟨rfl, _, world, hget, haround⟩
    · obtain rfl : calls = [] := congrArg Surroundings.world haround
      have hjournal := hmakes.performs.eq_of_nil Prod.snd fun _ _ => rfl
      by_cases hnumeral : failure = .notANumeral
      · subst hnumeral
        refine .marked hstep hat (At.marks_of_step hat hstep) (fun notes => ?_) hjournal
        exact congrArg (fun around => { around with world := notes }) haround
      · exact .refused hstep ⟨hnumeral, hne⟩ ((hstays hnumeral).machine_eq haround) hjournal
    · have hanswer : answers.characters 0 = none := congrArg Prod.fst hget
      have hcalls : calls = [.get (answers.characters 0)] :=
        (congrArg Surroundings.world haround).trans (congrArg Prod.snd hget).symm
      rw [hcalls, hanswer] at hmakes
      obtain ⟨text, hjournal⟩ := hmakes.performs.journal_of_get
      exact .unanswered hstep ((hstays nofun).machine_eq haround) hjournal
  · rw [hhangs.step_eq] at hstep
    cases hstep

/-- A run stops with a failure where there is a step to make and the turn fails. -/
theorem stops_iff_breaks (h : session.machine.Settled) :
    session.Stops host.recording budget (some failure, last) ↔
      session.isOver budget = false ∧ session.Breaks host budget failure last := by
  constructor
  · intro hstops
    cases hstops with
    | refused hgoing hstep => exact ⟨hgoing, breaks_of_step h hstep⟩
    | aborted hgoing hstep hpause =>
        obtain ⟨rfl, hgoing', hsleep, hmachine⟩ := pause_failed hpause
        obtain ⟨hstop, hnext⟩ := Prod.mk.inj hsleep
        obtain ⟨hworld, hjournal⟩ := Prod.mk.inj hnext
        exact ⟨hgoing, .stopped hstep hgoing' (Prod.ext hstop hworld) hmachine hjournal.symm⟩
  · rintro ⟨hgoing, hbreaks⟩
    cases hbreaks with
    | refused hstep => exact .refused hgoing hstep
    | unanswered hstep => exact .refused hgoing hstep
    | marked hstep => exact .refused hgoing hstep
    | @stopped fuel stepped _ hstep hgoing' hsleep hmachine hjournal =>
        refine .aborted hgoing hstep ?_
        obtain ⟨machine, world, journal⟩ := last
        simp only [pause, hgoing', Host.recording, hsleep] at hmachine hjournal ⊢
        rw [hmachine, hjournal]
        rfl

/-! ### Runs that fail -/

/-- The session behind a failure: it has been reported, then the text of the program was logged,
and the machine is a new one. -/
def reported (host : Host σ) (failure : Failure) (text : String)
    (session : Session (σ × Journal)) : Session (σ × Journal) :=
  ⟨.empty, (host.trace .unloaded (host.log text (host.report failure.message
      (host.trace (.stopped failure) session.world.1))),
    (session.world.2.note (.report failure.message)).note (.log text))⟩

/-- A run fails where a turn of it does, and reports that. -/
theorem run_fails_iff (h : session.machine.Settled) :
    Finishes (fun fuel => session.run host.recording fuel budget log) (some failure, last) ↔
      ∃ left reached stopped text,
        Drives host.recording (budget, session) (left, reached) ∧
        reached.Stops host.recording left (some failure, stopped) ∧
        Finishes (fun fuel => stopped.machine.listing fuel) text ∧
        last = stopped.reported host failure text := by
  constructor
  · intro hrun
    obtain ⟨fuel, hrun⟩ := hrun.exists_ok
    obtain ⟨stopped, hdrive, hfail⟩ := run_eq_ok hrun
    obtain ⟨⟨left, reached⟩, hdrives, hstops⟩ := exists_stops hdrive
    obtain ⟨text, hlisting⟩ := hstops.listable (hdrives.settled h)
    have hreported := finishes_fail_of_listing hlisting host.recording failure
    refine ⟨left, reached, stopped, text, hdrives, hstops, hlisting, ?_⟩
    exact Finishes.det (.of_ok (fun hfuel => fail_mono hfuel _ failure stopped) hfail) hreported
  · rintro ⟨left, reached, stopped, text, hdrives, hstops, hlisting, rfl⟩
    have hreported := finishes_fail_of_listing hlisting host.recording failure
    exact (drive_finishes_iff.mpr ⟨_, hdrives, hstops⟩).bind (hreported.bind (.pure _))

/-- A run fails exactly where there is a step to make and the turn fails, with what is left
there. Then the failure is reported, and directly behind that the text of what is left is logged,
and the run gives the failure back with a machine that is a new one. So it is after the program was
unloaded and after a text was rejected. -/
theorem failure_resets {host : Host σ} {session : Session σ} (h : Reachable host session) :
    (∀ (budget : Option Nat) (log : Bool) (failure : Failure) (last : Session (σ × Journal)),
      Finishes (fun fuel => session.recorded.run host.recording fuel budget log)
          (some failure, last) ↔
        ∃ left reached stopped text,
          Drives host.recording (budget, session.recorded) (left, reached) ∧
          reached.isOver left = false ∧ reached.Breaks host left failure stopped ∧
          Finishes (fun fuel => stopped.machine.listing fuel) text ∧
          last = stopped.reported host failure text) ∧
    (session.unload host).machine = .empty ∧
    ∀ fuel text log error next,
      session.load host fuel text log = .ok (some error, next) → next.machine = .empty := by
  have hsettled : session.recorded.machine.Settled := h.settled
  refine ⟨fun budget log failure last => ?_, rfl, fun _ _ _ _ _ hload => load_rejected hload⟩
  rw [run_fails_iff hsettled]
  constructor
  · rintro ⟨left, reached, stopped, text, hdrives, hstops, hreported⟩
    obtain ⟨hgoing, hbreaks⟩ := (stops_iff_breaks (hdrives.settled hsettled)).mp hstops
    exact ⟨left, reached, stopped, text, hdrives, hgoing, hbreaks, hreported⟩
  · rintro ⟨left, reached, stopped, text, hdrives, hgoing, hbreaks, hreported⟩
    have hstops := (stops_iff_breaks (hdrives.settled hsettled)).mpr ⟨hgoing, hbreaks⟩
    exact ⟨left, reached, stopped, text, hdrives, hstops, hreported⟩

theorem isProgram_unit_unit :
    Source.IsProgram ",\"\"".toList (.app (.leaf .unit) (.leaf .unit)) :=
  @Arena.isProgram_plain_listing (.app 0 (.leaf 1 .unit) (.leaf 2 .unit))
    (by simp [Layout.term, Term.Closed, Term.ClosedUnder])
    (by simp [Layout.term, Term.Writable])

/-- Where the unit is applied, the failure is reported with the whole text in brackets. -/
theorem failure_resets_unit : ∃ (session : Session (List Call))
    (last : Session (List Call × Journal)),
    (⟨.empty, []⟩ : Session (List Call)).load (Answers.host ⟨fun _ => none, fun _ => 0⟩) 0
      ",\"\"" false = .ok (none, session) ∧
    Finishes (fun fuel => session.recorded.run
      (Answers.host ⟨fun _ => none, fun _ => 0⟩).recording fuel none false)
      (some .notAFunction, last) ∧
    last.machine = .empty ∧
    last.world.2 = ⟨[.report "runtime error: null is not a function", .log "[,\"\"]"], 0⟩ := by
  obtain ⟨session, node, function, argument, hload, hat, hfunction, hargument⟩ :=
    exists_load_app isProgram_unit_unit (Answers.host ⟨fun _ => none, fun _ => 0⟩) ⟨.empty, []⟩
  obtain ⟨ref, rfl⟩ := Layout.exists_of_term_leaf hfunction
  obtain ⟨ref', rfl⟩ := Layout.exists_of_term_leaf hargument
  replace hat : session.recorded.At [] (.app node (.leaf ref .unit) (.leaf ref' .unit)) := hat
  have hread : session.recorded.machine.arena.read ref = .ok (.leaf .unit) :=
    hat.keeps.isTree.holds.2.1.read_root
  have hstep : session.recorded.step (Answers.host ⟨fun _ => none, fun _ => 0⟩).recording 0 =
      .ok (some .notAFunction, session.recorded) := by
    rw [hat.step_ready _ rfl rfl]
    simp only [reduce, Layout.root, hread, bind, Except.bind]
    rfl
  have hgoing : session.recorded.isOver none = false := At.isOver_eq hat none
  have hlisting := hat.finishes_listing
  obtain ⟨hruns, _⟩ := failure_resets (.load .new (hload 0))
  refine ⟨session, _, hload 0, (hruns none false .notAFunction _).mpr
    ⟨none, session.recorded, session.recorded, "[,\"\"]", .refl, hgoing,
      .refused hstep (by decide) rfl rfl, hlisting, rfl⟩, rfl, rfl⟩

end Session

end LambdaMachine
