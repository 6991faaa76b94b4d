import LambdaMachine.Proofs.Driving
import LambdaMachine.Proofs.Parsing
import LambdaMachine.Proofs.Stepping

/-!
# What the calls of a session lead to

A loaded text is to be evaluated from its start, and a text that was rejected leaves the
machine empty, as a failure does. In between, the machine is always settled: it is empty,
stands at a redex or is done with a value (`Settled.of_drives`). From a settled machine
every call finishes unless the program goes on for ever, so the only fault that a call ends
in is to be cut off.
-/

namespace LambdaMachine

open Layout (Layer within)

variable {σ : Type}

/-! ### Settled machines -/

namespace Machine

/-- The machine is empty, stands at a redex, or is done with a value. -/
inductive Settled : Machine → Prop where
  | empty {machine} (hempty : machine = .empty) : Settled machine
  | reducing {machine layers redex} (hat : machine.cursor.At machine.arena layers redex) :
      Settled machine
  | done {machine whole} (hdone : machine.cursor.Done machine.arena whole) : Settled machine

/-- The program of the machine can be listed. -/
def Listable (machine : Machine) : Prop :=
  ∃ text, Finishes (fun fuel => machine.listing fuel) text

theorem listable_of_holds {machine : Machine} {whole : Layout Atom}
    (hholds : machine.arena.Holds whole) (hroot : machine.cursor.root = some whole.root) :
    machine.Listable := by
  have hlisting := hholds.finishes_listing machine.cursor.redex
  rw [← hroot] at hlisting
  exact ⟨_, hlisting⟩

theorem Settled.listable {machine : Machine} (h : machine.Settled) : machine.Listable := by
  cases h with
  | empty hempty =>
      subst hempty
      exact ⟨"", .pure _⟩
  | reducing hat => exact listable_of_holds hat.keeps.isTree.holds hat.keeps.root_eq
  | done hdone => exact listable_of_holds hdone.keeps.isTree.holds hdone.keeps.root_eq

/-- The machine has no redex, or stands at one. -/
theorem Settled.ended_or_at {machine : Machine} (h : machine.Settled) :
    machine.cursor.redex = none ∨
      ∃ layers redex, machine.cursor.At machine.arena layers redex := by
  cases h with
  | empty hempty =>
      rw [hempty]
      exact .inl rfl
  | reducing hat => exact .inr ⟨_, _, hat⟩
  | done hdone => exact .inl hdone.redex_eq

end Machine

namespace Session

variable {host : Host σ} {session next last : Session σ} {layers : List (Layer Atom)}
  {redex : Layout Atom} {stage : Term.Stage Atom Failure} {budget : Option Nat} {fuel : Nat}
  {log : Bool} {text : String} {failure : Failure} {outcome : Outcome σ} {fault : Fault}
  {before after : Option Nat × Session σ}

theorem Shows.settled (hshows : session.Shows stage) (hnone : stage.failure? = none) :
    session.machine.Settled := by
  cases stage with
  | going layers term =>
      obtain ⟨_, _, hat, _⟩ := hshows
      exact .reducing hat
  | ended result =>
      cases result with
      | ok value =>
          obtain ⟨_, hdone, _⟩ := hshows
          exact .done hdone
      | error failure => cases hnone

theorem Shows.listable (hshows : session.Shows stage) : session.machine.Listable := by
  cases hfailure : stage.failure? with
  | none => exact (hshows.settled hfailure).listable
  | some failure =>
      obtain ⟨failure, rfl⟩ : ∃ failure, stage = .ended (.error failure) := by
        cases stage with
        | going layers term => cases hfailure
        | ended result =>
            cases result with
            | ok value => cases hfailure
            | error failure => exact ⟨failure, rfl⟩
      obtain ⟨_, hholds, hroot⟩ := hshows
      exact Machine.listable_of_holds hholds hroot

/-- At a redex, the run is over only if its budget is used up. -/
theorem At.isOver_eq (hat : session.At layers redex) (budget : Option Nat) :
    session.isOver budget = (budget == some 0) := by
  simp [isOver, Machine.ended, hat.redex_eq]

theorem Shows.isOver_of_going {layers : List (Term.Layer Atom)} {term : Term Atom}
    (hshows : session.Shows (.going layers term)) : session.isOver none = false := by
  obtain ⟨_, _, hat, _⟩ := hshows
  exact At.isOver_eq hat none

theorem Shows.isOver_of_ended {value : Term Atom} (hshows : session.Shows (.ended (.ok value)))
    (budget : Option Nat) : session.isOver budget = true := by
  obtain ⟨_, hdone, _⟩ := hshows
  simp [isOver, Machine.ended, hdone.redex_eq]

theorem step_of_ended (hredex : session.machine.cursor.redex = none) (fuel : Nat) :
    session.step host fuel = .ok (none, session) := by
  unfold step
  rw [hredex]
  rfl

/-- A step of a settled machine is cut off, or there is none to make, or it makes an advance of
the evaluation. -/
theorem step_cases_of_settled (h : session.machine.Settled) (host : Host σ) (fuel : Nat) :
    session.step host fuel = .error .outOfFuel ∨ session.step host fuel = .ok (none, session) ∨
      ∃ outcome layers redex calls stage, session.step host fuel = .ok outcome ∧
        session.Makes host layers redex outcome calls stage := by
  rcases h.ended_or_at with hredex | ⟨layers, redex, hat⟩
  · exact .inr (.inl (step_of_ended hredex fuel))
  · rcases At.step_cases hat host with ⟨outcome, calls, stage, hstep, hmakes⟩ | hhangs
    · rcases hstep.eq_or_cut (fun hfuel => step_mono hfuel host session) fuel with hcut | hok
      · exact .inl hcut
      · exact .inr (.inr ⟨outcome, layers, redex, calls, stage, hok, hmakes⟩)
    · exact .inl (hhangs.step_eq fuel)

theorem made_of_step (h : session.machine.Settled)
    (hstep : session.step host fuel = .ok outcome) :
    outcome = (none, session) ∨
      ∃ layers redex calls stage, session.Makes host layers redex outcome calls stage := by
  rcases step_cases_of_settled h host fuel with
    hcut | hsame | ⟨_, layers, redex, calls, stage, hok, hmakes⟩
  · rw [hstep] at hcut
    cases hcut
  · rw [hstep] at hsame
    exact .inl (Except.ok.inj hsame)
  · obtain rfl := Except.ok.inj (hstep.symm.trans hok)
    exact .inr ⟨layers, redex, calls, stage, hmakes⟩

theorem Shows.of_machine (hshows : session.Shows stage)
    (hmachine : next.machine = session.machine) : next.Shows stage := by
  unfold Shows
  rwa [hmachine]

theorem around_of_machine (hmachine : next.machine = session.machine) (notes : List Call) :
    next.around notes = session.around notes := by
  unfold Session.around
  rw [hmachine]

theorem pause_machine (host : Host σ) (budget : Option Nat) (session : Session σ) :
    (session.pause host budget).2.machine = session.machine := by
  unfold pause
  split <;> rfl

theorem machine_of_pause {paused : Option Failure}
    (hpause : session.pause host budget = (paused, next)) : next.machine = session.machine := by
  rw [← pause_machine host budget session, hpause]

/-- A pause fails only if the host asks to stop. -/
theorem pause_failed (hpause : session.pause host budget = (some failure, next)) :
    failure = .aborted ∧ session.isOver budget = false ∧
      host.sleep session.world = (true, next.world) ∧ next.machine = session.machine := by
  have hmachine := machine_of_pause hpause
  unfold pause at hpause
  split at hpause
  next hover => cases hpause
  next hgoing =>
      obtain ⟨hfailure, hnext⟩ := Prod.mk.inj hpause
      split at hfailure
      next hstop =>
          refine ⟨(Option.some.inj hfailure).symm, by simpa using hgoing, ?_, hmachine⟩
          rw [← hnext]
          exact Prod.ext hstop rfl
      next => cases hfailure

/-- A step that was made left a settled machine, or one that can be listed. -/
theorem settled_of_step (h : session.machine.Settled)
    (hstep : session.step host fuel = .ok outcome) :
    outcome.2.machine.Listable ∧ (outcome.1 = none → outcome.2.machine.Settled) := by
  rcases made_of_step h hstep with rfl | ⟨_, _, _, stage, hmakes⟩
  · exact ⟨h.listable, fun _ => h⟩
  · refine ⟨hmakes.shows.listable, fun hnone => ?_⟩
    exact hmakes.shows.settled (hmakes.failure_eq ▸ hnone)

/-- Every turn of a run begins and ends with a settled machine. -/
theorem Drives.settled (hdrives : Drives host before after) (h : before.2.machine.Settled) :
    after.2.machine.Settled := by
  induction hdrives with
  | refl => exact h
  | tail _ hturns ih =>
      obtain ⟨_, _, fuel, stepped, hstep, hpause⟩ := hturns
      rw [machine_of_pause hpause]
      exact (settled_of_step ih hstep).2 rfl

theorem Stops.listable (hstops : session.Stops host budget outcome)
    (h : session.machine.Settled) : outcome.2.machine.Listable := by
  cases hstops with
  | finished _ => exact h.listable
  | refused _ hstep => exact (settled_of_step h hstep).1
  | aborted _ hstep hpause =>
      rw [machine_of_pause hpause]
      exact (settled_of_step h hstep).1

/-! ### Invariants of the world -/

/-- No call of a program and no pause of a run takes the world of this host out of a property. -/
structure WorldKept (host : Host σ) (P : σ → Prop) : Prop where
  performs : ∀ (calls : List Call) (world world' : σ),
    host.Performs calls world world' → P world → P world'
  sleep : ∀ world : σ, P world → P (host.sleep world).2

namespace WorldKept

variable {P : σ → Prop}

theorem of_step (h : WorldKept host P) (hsettled : session.machine.Settled)
    (hstep : session.step host fuel = .ok outcome) (hworld : P session.world) :
    P outcome.2.world := by
  rcases made_of_step hsettled hstep with rfl | ⟨_, _, calls, _, hmakes⟩
  · exact hworld
  · exact h.performs calls _ _ hmakes.performs hworld

theorem of_pause (h : WorldKept host P) {paused : Option Failure}
    (hpause : session.pause host budget = (paused, next)) (hworld : P session.world) :
    P next.world := by
  unfold pause at hpause
  split at hpause
  · cases hpause
    exact hworld
  · cases hpause
    exact h.sleep _ hworld

/-- From turn to turn of a run, the world keeps the property. -/
theorem of_drives (h : WorldKept host P) (hdrives : Drives host before after)
    (hsettled : before.2.machine.Settled) (hworld : P before.2.world) : P after.2.world := by
  induction hdrives with
  | refl => exact hworld
  | tail hdrives hturns ih =>
      obtain ⟨_, _, _, stepped, hstep, hpause⟩ := hturns
      exact h.of_pause hpause (h.of_step (Drives.settled hdrives hsettled) hstep ih)

end WorldKept

/-! ### Running -/

theorem logListing_machine (hlog : session.logListing host fuel = .ok next) :
    next.machine = session.machine := by
  obtain ⟨text, _, heq⟩ := bind_eq_ok_iff.mp hlog
  cases heq
  rfl

theorem finishes_logListing {machine : Machine} (host : Host σ)
    (hlisting : Finishes (fun fuel => machine.listing fuel) text) (world : σ) :
    Finishes (fun fuel => logListing host fuel ⟨machine, world⟩) ⟨machine, host.log text world⟩ :=
  hlisting.bind (.pure _)

/-- A failure is reported, the text is logged, and the machine is emptied. -/
theorem finishes_fail_of_listing
    (hlisting : Finishes (fun fuel => session.machine.listing fuel) text)
    (host : Host σ) (failure : Failure) :
    Finishes (fun fuel => session.fail host fuel failure)
      (unload host ⟨session.machine, host.log text (host.report failure.message
        (host.trace (.stopped failure) session.world))⟩) :=
  (finishes_logListing host hlisting _).bind (.of_eq fun _ => rfl)

theorem finishes_fail (h : session.machine.Listable) (host : Host σ) (failure : Failure) :
    ∃ next, Finishes (fun fuel => session.fail host fuel failure) next := by
  obtain ⟨text, hlisting⟩ := h
  exact ⟨_, finishes_fail_of_listing hlisting host failure⟩

theorem fail_machine (hfail : session.fail host fuel failure = .ok next) :
    next.machine = .empty := by
  obtain ⟨logged, _, heq⟩ := bind_eq_ok_iff.mp hfail
  cases heq
  rfl

/-- A run ends where its turns end, apart from what is logged, and is emptied if it failed. -/
theorem run_eq_ok (hrun : session.run host fuel budget log = .ok outcome) :
    ∃ last, session.drive host fuel budget = .ok (outcome.1, last) ∧
      match outcome.1 with
      | some failure => last.fail host fuel failure = .ok outcome.2
      | none => if log then last.logListing host fuel = .ok outcome.2 else outcome.2 = last := by
  obtain ⟨⟨failure, last⟩, hdrive, hrest⟩ := bind_eq_ok_iff.mp hrun
  cases failure with
  | some failure =>
      obtain ⟨next, hfail, heq⟩ := bind_eq_ok_iff.mp hrest
      cases heq
      exact ⟨last, hdrive, hfail⟩
  | none =>
      cases log with
      | false =>
          cases hrest
          exact ⟨last, hdrive, by simp⟩
      | true =>
          obtain ⟨next, hlog, heq⟩ := bind_eq_ok_iff.mp hrest
          cases heq
          exact ⟨last, hdrive, by simpa using hlog⟩

/-- A run of a settled machine leaves a settled machine. -/
theorem settled_of_run (h : session.machine.Settled)
    (hrun : session.run host fuel budget log = .ok outcome) : outcome.2.machine.Settled := by
  obtain ⟨failure, next⟩ := outcome
  obtain ⟨last, hdrive, hnext⟩ := run_eq_ok hrun
  cases failure with
  | some failure => exact .empty (fail_machine hnext)
  | none =>
      obtain ⟨_, hdrives, hstops⟩ := exists_stops hdrive
      have hsettled : last.machine.Settled := by
        cases hstops
        exact hdrives.settled h
      cases log with
      | false =>
          simp only [Bool.false_eq_true, if_false] at hnext
          exact hnext ▸ hsettled
      | true =>
          simp only [if_true] at hnext
          rwa [logListing_machine hnext]

theorem sound_of_derives {tokens : List Token} {term : Term Atom}
    (hderives : Source.Derives 0 tokens term) : term.Sound := by
  have hunmarked : ∀ {depth tokens} {term : Term Atom}, Source.Derives depth tokens term →
      term.Unmarked := by
    intro depth tokens term hderives
    induction hderives with
    | unit => exact Atom.noConfusion
    | var _ => trivial
    | put => exact Atom.noConfusion
    | get => exact Atom.noConfusion
    | random => exact Atom.noConfusion
    | lam _ ih => exact ih
    | app _ _ ihf iha => exact ⟨ihf, iha⟩
  exact ⟨hderives.closedUnder, hunmarked hderives⟩

/-- A machine that holds a program from its start is where the evaluation of it begins. -/
theorem shows_enter {arena : Program} {whole : Layout Atom}
    (hkeeps : arena.Keeps (some whole.root) whole) (assembler : Utf8.Assembler)
    (splitter : Utf8.Splitter) (world : σ) :
    Shows ⟨⟨arena, ⟨some whole.root, if whole.term.isApp then some whole.root else none, []⟩,
      assembler, splitter⟩, world⟩ (.enter [] whole.term) := by
  cases happ : whole.term.isApp with
  | true =>
      rw [Term.Stage.enter_of_isApp happ]
      exact ⟨[], whole, ⟨hkeeps, rfl, rfl, happ, by simp⟩, rfl, rfl⟩
  | false =>
      rw [Term.Stage.enter_of_value happ]
      exact ⟨whole, ⟨hkeeps, rfl, rfl, happ⟩, rfl⟩

/-- A text is no program and is rejected, or it is one and its evaluation begins in the loaded
session. -/
theorem load_cases (host : Host σ) (text : String) (log : Bool) (session : Session σ) :
    ((¬ ∃ term, Source.IsProgram text.toList term) ∧ ∃ error world, ∀ fuel,
        session.load host fuel text log = .ok (some error, ⟨.empty, world⟩)) ∨
      ∃ term started, Source.IsProgram text.toList term ∧ started.Shows (.enter [] term) ∧
        host.Performs [] session.world started.world ∧
        (∀ notes : List Call, started.around notes = ⟨{}, {}, notes⟩) ∧
        ∀ fuel, session.load host fuel text log =
          if log then (do return (none, ← started.logListing host fuel))
          else .ok (none, started) := by
  match hparse : Source.parse text .empty with
  | ⟨_, .error error⟩ =>
      refine .inl ⟨?_, error, host.report error.message
        (host.trace (.rejected error.position) (host.trace .unloaded session.world)),
        fun fuel => ?_⟩
      · rintro ⟨term, tokens, hspells, hderives⟩
        obtain ⟨_, _, hok, _⟩ :=
          Source.IsProgram.exists_parse Arena.wellFormed_empty hspells hderives
        rw [hparse] at hok
        cases hok
      · simp only [load, hparse]
        rfl
  | ⟨arena, .ok root⟩ =>
      have hok : (Source.parse text .empty).result = .ok root := by rw [hparse]
      obtain ⟨tokens, term, hspells, hderives⟩ :=
        Source.exists_isProgram Arena.wellFormed_empty hok
      obtain ⟨whole, rfl, hok', htree, hexchange⟩ :=
        Source.IsProgram.exists_parse Arena.wellFormed_empty hspells hderives
      rw [hparse] at hok' htree hexchange
      obtain rfl : root = whole.root := Except.ok.inj hok'
      -- The arena was empty before, so only the slots of the program are live.
      have hkeeps : arena.Keeps (some whole.root) whole := by
        refine ⟨⟨hexchange.wellFormed Arena.wellFormed_empty, htree, fun ref hsome => ?_, rfl⟩,
          sound_of_derives hderives⟩
        have hbefore : ∀ ref, ((Arena.empty : Program).node? ref).isSome → ref ∈ [] ++ [] := by simp
        simpa using hexchange.live_subset hbefore hsome
      have hisApp := htree.holds.isApp_root
      refine .inr ⟨whole.term, _, ⟨tokens, hspells, hderives⟩, shows_enter hkeeps {} {}
        (host.trace (.loaded arena.live (!whole.term.isApp)) (host.trace .unloaded session.world)),
        .trace (.trace .nil), fun _ => rfl, fun fuel => ?_⟩
      simp only [load, hparse, hisApp, bind, Except.bind, pure, Except.pure]
      rfl

/-- The text of a program is loaded. -/
theorem exists_load {term : Term Atom} (hprogram : Source.IsProgram text.toList term)
    (host : Host σ) (session : Session σ) :
    ∃ started, ∀ fuel, session.load host fuel text false = .ok (none, started) := by
  rcases load_cases host text false session with
    ⟨hnone, _⟩ | ⟨_, started, _, _, _, _, heq⟩
  · exact absurd ⟨term, hprogram⟩ hnone
  · exact ⟨started, by simpa using heq⟩

/-- The text of a program is loaded, and the host is told no more than diagnostics before the
listing is logged, if it is. -/
theorem exists_started {term : Term Atom} (hprogram : Source.IsProgram text.toList term)
    (host : Host σ) (log : Bool) (session : Session σ) :
    ∃ started told, Finishes (fun fuel => session.load host fuel text log) (none, started) ∧
      started.Shows (.enter [] term) ∧
      (∀ notes : List Call, started.around notes = ⟨{}, {}, notes⟩) ∧
      host.Performs [] session.world told ∧
      (started.world = told ∨ log = true ∧ ∃ listing, started.world = host.log listing told) := by
  rcases load_cases host text log session with
    ⟨hnone, _⟩ | ⟨_, started, hprogram', hshows, hperforms, haround, heq⟩
  · exact absurd ⟨term, hprogram⟩ hnone
  obtain rfl := hprogram.det hprogram'
  cases log with
  | false =>
      refine ⟨started, started.world, .of_eq fun fuel => ?_, hshows, haround, hperforms, .inl rfl⟩
      simpa using heq fuel
  | true =>
      obtain ⟨listing, hlisting⟩ := hshows.listable
      have hlogged : Finishes (fun fuel => started.logListing host fuel)
          ⟨started.machine, host.log listing started.world⟩ :=
        finishes_logListing host hlisting started.world
      refine ⟨⟨started.machine, host.log listing started.world⟩, started.world, ?_, hshows, haround,
        hperforms, .inr ⟨rfl, listing, rfl⟩⟩
      simp only [heq, if_true]
      exact hlogged.bind (.pure _)

/-- After loading, also if the listing was logged, the evaluation of a program begins. -/
theorem load_accepted (hload : session.load host fuel text log = .ok (none, next)) :
    ∃ term, Source.IsProgram text.toList term ∧ next.Shows (.enter [] term) ∧
      ∀ notes : List Call, next.around notes = ⟨{}, {}, notes⟩ := by
  rcases load_cases host text log session with
    ⟨_, _, _, heq⟩ | ⟨term, started, hprogram, hshows, _, haround, heq⟩
  · rw [heq] at hload
    cases hload
  · rw [heq] at hload
    cases log with
    | false =>
        cases hload
        exact ⟨term, hprogram, hshows, haround⟩
    | true =>
        obtain ⟨logged, hlog, heq⟩ := bind_eq_ok_iff.mp hload
        cases heq
        have hmachine := logListing_machine hlog
        refine ⟨term, hprogram, hshows.of_machine hmachine, fun notes => ?_⟩
        rw [around_of_machine hmachine, haround]

/-- The text of an application is loaded, and the whole of it is reduced first. -/
theorem exists_load_app {function argument : Term Atom}
    (hprogram : Source.IsProgram text.toList (.app function argument)) (host : Host σ)
    (before : Session σ) :
    ∃ session node left right, (∀ fuel, before.load host fuel text false = .ok (none, session)) ∧
      session.At [] (.app node left right) ∧ left.term = function ∧ right.term = argument := by
  obtain ⟨session, hload⟩ := exists_load hprogram host before
  obtain ⟨_, hprogram', hshows, _⟩ := load_accepted (hload 0)
  obtain rfl := hprogram'.det hprogram
  rw [Term.Stage.enter_of_isApp rfl] at hshows
  obtain ⟨layers, redex, hat, hlayers, hterm⟩ := hshows
  obtain rfl := List.map_eq_nil_iff.mp hlayers
  obtain ⟨node, left, right, rfl⟩ := Layout.exists_of_isApp hat.isApp
  obtain ⟨hleft, hright⟩ := Term.app.inj hterm
  exact ⟨session, node, left, right, hload, hat, hleft, hright⟩

/-- After a text was rejected, the machine is empty. -/
theorem load_rejected {error : SyntaxError}
    (hload : session.load host fuel text log = .ok (some error, next)) :
    next.machine = .empty := by
  rcases load_cases host text log session with ⟨_, _, _, heq⟩ | ⟨_, started, _, _, _, _, heq⟩
  · rw [heq] at hload
    cases hload
    rfl
  · rw [heq] at hload
    cases log with
    | false => cases hload
    | true =>
        obtain ⟨_, _, heq⟩ := bind_eq_ok_iff.mp hload
        cases heq

/-- Whatever it holds before, the machine is settled after loading. -/
theorem settled_of_load {error : Option SyntaxError}
    (hload : session.load host fuel text log = .ok (error, next)) : next.machine.Settled := by
  cases error with
  | none =>
      obtain ⟨term, _, hshows, _⟩ := load_accepted hload
      exact hshows.settled (Term.Stage.failure?_enter [] term)
  | some error => exact .empty (load_rejected hload)

/-! ### Faults -/

theorem logListing_unbroken (h : session.machine.Listable) (host : Host σ) (fuel : Nat) :
    Unbroken (session.logListing host fuel) := by
  obtain ⟨text, hlisting⟩ := h
  have hunbroken : Unbroken (session.machine.listing fuel) :=
    hlisting.unbroken (fun hfuel => Arena.listing_mono hfuel _ _ _) fuel
  exact hunbroken.bind fun _ _ => .ok _

theorem fail_unbroken (h : session.machine.Listable) (host : Host σ) (fuel : Nat)
    (failure : Failure) : Unbroken (session.fail host fuel failure) := by
  have hreported : ((⟨session.machine, host.report failure.message
    (host.trace (.stopped failure) session.world)⟩ : Session σ)).machine.Listable := h
  exact (logListing_unbroken hreported host fuel).bind fun _ _ => .ok _

/-- Loading ends in no fault. -/
theorem load_unbroken (host : Host σ) (fuel : Nat) (text : String) (log : Bool)
    (session : Session σ) : Unbroken (session.load host fuel text log) := by
  rcases load_cases host text log session with
    ⟨_, _, _, heq⟩ | ⟨term, started, _, hshows, _, _, heq⟩
  · exact heq fuel ▸ .ok _
  · rw [heq fuel]
    cases log with
    | false => exact .ok _
    | true => exact (logListing_unbroken hshows.listable host fuel).bind fun _ _ => .ok _

theorem step_unbroken (h : session.machine.Settled) (host : Host σ) (fuel : Nat) :
    Unbroken (session.step host fuel) := by
  rcases step_cases_of_settled h host fuel with hcut | hsame | ⟨_, _, _, _, _, hok, _⟩
  · exact hcut ▸ .cut
  · exact hsame ▸ .ok _
  · exact hok ▸ .ok _

theorem drive_unbroken (h : session.machine.Settled) (host : Host σ) (fuel : Nat)
    (budget : Option Nat) : Unbroken (session.drive host fuel budget) := by
  induction fuel generalizing session budget with
  | zero =>
      unfold drive
      split
      · exact .ok _
      · exact .cut
  | succ fuel ih =>
      cases hover : session.isOver budget with
      | true => exact drive_of_over hover _ ▸ .ok _
      | false =>
          rw [drive_of_going hover]
          refine (step_unbroken h host fuel).bind fun turned hstep => ?_
          obtain ⟨failure, stepped⟩ := turned
          cases failure with
          | some failure => exact .ok _
          | none =>
              dsimp only
              split
              next hpause => exact .ok _
              next next hpause =>
                apply ih
                rw [machine_of_pause hpause]
                exact (settled_of_step h hstep).2 rfl

/-- A run ends in no fault. -/
theorem run_unbroken (h : session.machine.Settled) (host : Host σ) (fuel : Nat)
    (budget : Option Nat) (log : Bool) : Unbroken (session.run host fuel budget log) := by
  refine (drive_unbroken h host fuel budget).bind fun outcome hdrive => ?_
  obtain ⟨_, hdrives, hstops⟩ := exists_stops hdrive
  have hlistable := hstops.listable (hdrives.settled h)
  obtain ⟨failure, last⟩ := outcome
  cases failure with
  | some failure =>
      exact (fail_unbroken hlistable host fuel failure).bind fun _ _ => .ok _
  | none =>
      cases log with
      | false => exact .ok _
      | true => exact (logListing_unbroken hlistable host fuel).bind fun _ _ => .ok _

end Session

end LambdaMachine
