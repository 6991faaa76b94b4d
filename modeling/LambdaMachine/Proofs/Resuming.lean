import LambdaMachine.Proofs.Assembling
import LambdaMachine.Proofs.Budgets
import LambdaMachine.Proofs.Recording
import LambdaMachine.Proofs.Twins

/-!
# Resuming a program from its text

A running program can be saved as text: where no output waits for the unit and no character is
unfinished, the text holds all that the run goes on from. A machine that has loaded the text
goes down from the root, with nothing but pauses, to the place where the program was being
reduced (`exists_descent`). From there the two sessions are twins, so they run alike
(`run_resumes`). The pauses on the way down must not change what the host answers
(`not_resumes_late`).
-/

namespace LambdaMachine

open Layout (Layer within)

variable {σ τ : Type} {host : Host σ} {quiet : Host τ} {view : σ → τ}

/-! ### Between characters -/

theorem Surroundings.receive_assembler (around : Surroundings σ) (host : Host σ) :
    (around.receive host).2.assembler = around.assembler := by
  unfold receive
  split
  · rfl
  · split <;> rfl

/-- After a built-in was applied, the assembler holds the first bytes of a character again. -/
theorem Atom.Rule.exists_holds {around around' : Surroundings σ} {head operand : Term Atom}
    {outcome : Except Failure (Term Atom)} {taken : List Nat}
    (hrule : Rule host around head operand outcome around')
    (hholds : around.assembler.Holds taken) : ∃ taken', around'.assembler.Holds taken' := by
  cases hrule with
  | @send _ _ number hsend =>
      have hanswers := hholds.answers number
      unfold Surroundings.send at hsend
      split at hsend
      next => cases hsend
      next state hpush =>
        cases hsend
        rw [hpush] at hanswers
        cases hanswers with
        | taken _ hholds' => exact ⟨_, hholds'⟩
      next character hpush =>
        cases hsend
        exact ⟨[], .lead⟩
  | get hreceive =>
      have hassembler := around.receive_assembler host
      rw [hreceive] at hassembler
      exact ⟨taken, hassembler ▸ hholds⟩
  | getFails hreceive =>
      have hassembler := around.receive_assembler host
      rw [hreceive] at hassembler
      exact ⟨taken, hassembler ▸ hholds⟩
  | random hdraw =>
      cases hdraw
      exact ⟨taken, hholds⟩
  | put => exact ⟨taken, hholds⟩
  | putFails => exact ⟨taken, hholds⟩
  | notNull => exact ⟨taken, hholds⟩
  | sendFails => exact ⟨taken, hholds⟩
  | sendMarker => exact ⟨taken, hholds⟩
  | notAFunction => exact ⟨taken, hholds⟩

theorem Term.Advances.exists_holds {around around' : Surroundings σ}
    {layers : List (Term.Layer Atom)} {term : Term Atom} {stage : Term.Stage Atom Failure}
    {taken : List Nat}
    (hadvances : Term.Advances (Atom.Rule host) layers term around stage around')
    (hholds : around.assembler.Holds taken) : ∃ taken', around'.assembler.Holds taken' := by
  cases hadvances with
  | function => exact ⟨taken, hholds⟩
  | argument => exact ⟨taken, hholds⟩
  | contract => exact ⟨taken, hholds⟩
  | rule _ _ _ hrule => exact hrule.exists_holds hholds

namespace Session

section Assembling

variable {session next last : Session σ} {budget : Option Nat} {fuel : Nat} {outcome : Outcome σ}
  {before after : Option Nat × Session σ} {taken : List Nat}

theorem exists_holds_of_step (h : session.machine.Settled)
    (hstep : session.step host fuel = .ok outcome)
    (hholds : session.machine.assembler.Holds taken) :
    ∃ taken', outcome.2.machine.assembler.Holds taken' := by
  rcases made_of_step h hstep with rfl | ⟨_, _, calls, _, hmakes⟩
  · exact ⟨taken, hholds⟩
  · obtain ⟨answers, hexplains⟩ := Answers.exists_explaining calls
    exact (hmakes.advances answers [] hexplains).exists_holds hholds

theorem Drives.exists_holds (hdrives : Drives host before after) (h : before.2.machine.Settled)
    (hholds : before.2.machine.assembler.Holds taken) :
    ∃ taken', after.2.machine.assembler.Holds taken' := by
  induction hdrives with
  | refl => exact ⟨taken, hholds⟩
  | tail hdrives hturns ih =>
      obtain ⟨taken, hholds⟩ := ih
      obtain ⟨_, _, fuel, stepped, hstep, hpause⟩ := hturns
      rw [machine_of_pause hpause]
      exact exists_holds_of_step (Drives.settled hdrives h) hstep hholds

/-- The assembler of a reachable session holds the first bytes of a character. -/
theorem Reachable.exists_holds (h : Reachable host session) :
    ∃ taken, session.machine.assembler.Holds taken := by
  induction h with
  | new => exact ⟨[], .lead⟩
  | unload => exact ⟨[], .lead⟩
  | world _ ih => exact ih
  | @load _ next _ _ _ error _ hload _ =>
      cases error with
      | some error => exact ⟨[], load_rejected hload ▸ .lead⟩
      | none =>
          obtain ⟨_, _, _, haround⟩ := load_accepted hload
          have hassembler := congrArg Surroundings.assembler (haround [])
          replace hassembler : next.machine.assembler = {} := hassembler
          exact ⟨[], hassembler ▸ .lead⟩
  | @run session next _ _ log failure h hrun ih =>
      obtain ⟨taken, hholds⟩ := ih
      obtain ⟨stopped, hdrive, hrest⟩ := run_eq_ok hrun
      cases failure with
      | some failure => exact ⟨[], fail_machine hrest ▸ .lead⟩
      | none =>
          obtain ⟨_, hdrives, hstops⟩ := exists_stops hdrive
          have hstopped : ∃ taken, stopped.machine.assembler.Holds taken := by
            cases hstops
            exact hdrives.exists_holds h.settled hholds
          cases log with
          | false =>
              obtain rfl : next = stopped := hrest
              exact hstopped
          | true => exact logListing_machine hrest ▸ hstopped

end Assembling

end Session

/-! ### Going down -/

/-- A position in this layer is gone down to: an argument only if the function part is a value. -/
def Term.Layer.Waiting : Term.Layer Atom → Prop
  | .function _ => True
  | .argument left => left.isApp = false

theorem Term.isApp_within {layers : List (Term.Layer Atom)} {term : Term Atom}
    (happ : term.isApp = true) : (Term.within layers term).isApp = true := by
  induction layers generalizing term with
  | nil => exact happ
  | cons layer layers ih => exact ih (by cases layer <;> rfl)

theorem Layout.Layer.waiting_term {layer : Layer Atom}
    (h : layer.link.side = .argument → layer.other.term.isApp = false) : layer.term.Waiting := by
  cases layer with
  | function => trivial
  | argument => exact h rfl

theorem Term.Layer.Waiting.advances {layers : List (Term.Layer Atom)} {layer : Term.Layer Atom}
    {term : Term Atom} (hwaiting : layer.Waiting) (happ : term.isApp = true)
    (around : Surroundings σ) :
    Term.Advances (Atom.Rule host) layers (layer.around term) around
      (.going (layer :: layers) term) around := by
  cases layer with
  | function => exact .function happ
  | argument => exact .argument hwaiting happ

/-- No output waits for the unit in the term exactly if there is none in the arena. -/
theorem Arena.Keeps.writable_iff {arena : Program} {root : Option Ref} {whole : Layout Atom}
    (h : arena.Keeps root whole) :
    whole.term.Writable ↔ ∀ ref number, arena.node? ref ≠ some (.leaf (.pending number)) := by
  constructor
  · intro hwritable ref number hnode
    obtain ⟨depth, hbelow⟩ := (h.live_iff ref).mp (by simp [hnode])
    obtain ⟨part, hpart, rfl⟩ := h.isTree.holds.exists_part hbelow
    rw [(h.isTree.holds.of_part hpart).node?_root] at hnode
    cases part with
    | leaf ref atom =>
        cases hnode
        exact hpart.writable hwritable number rfl
    | _ => cases hnode
  · intro hnone
    have hholds := h.isTree.holds
    clear h
    induction whole with
    | lam ref body ih => exact ih hholds.2
    | app ref function argument ihf iha => exact ⟨ihf hholds.2.1, iha hholds.2.2⟩
    | var ref index => trivial
    | leaf ref atom =>
        intro number hatom
        subst hatom
        exact hnone ref number hholds

/-- The same after so many pauses. -/
def Surroundings.behind (pauses : Nat) (around : Surroundings (τ × Journal)) :
    Surroundings (τ × Journal) :=
  { around with world := (around.world.1, around.world.2.behind pauses) }

theorem Host.Quiet.deaf_recording (hquiet : quiet.Quiet) : quiet.recording.Deaf :=
  fun diagnostic world => by simp only [Host.recording, hquiet.trace]

namespace Session

section Descending

variable {session : Session (τ × Journal)} {outer : List (Term.Layer Atom)} {term : Term Atom}

/-- A turn goes down by one layer, with nothing but a pause. -/
theorem Shows.exists_down {layer : Term.Layer Atom} (hquiet : quiet.Quiet)
    (hshows : session.Shows (.going outer (layer.around term))) (hwaiting : layer.Waiting)
    (happ : term.isApp = true) :
    ∃ next, Turns quiet.recording (none, session) (none, next) ∧
      next.Shows (.going (layer :: outer) term) ∧
      next.around next.world = (session.around session.world).behind 1 := by
  have hgoing := hshows.isOver_of_going
  obtain ⟨layers, redex, hat, rfl, hterm⟩ := hshows
  rcases At.exists_advance hat hquiet.deaf_recording hat.finishes_listing with
    ⟨⟨_, stepped⟩, stage, hstep, hfailure, hshows, hadvances⟩ | ⟨operand, hput, hvalue, _⟩
  · rw [hterm] at hadvances
    obtain ⟨rfl, haround⟩ := (hwaiting.advances happ _).det (Atom.rule_deterministic _) hadvances
    obtain rfl : _ = none := hfailure
    obtain ⟨fuel, hstep⟩ := hstep.exists_ok
    refine ⟨⟨stepped.machine, (stepped.world.1, stepped.world.2.pause)⟩,
      ⟨hgoing, rfl, fuel, stepped, hstep, ?_⟩, hshows, ?_⟩
    · have hgoing' : stepped.isOver none = false := hshows.isOver_of_going
      simp [pause, hgoing', Host.recording, hquiet.sleep]
    · rw [haround]
      rfl
  -- The part that is gone down to is an application, and those of an output are none.
  · rw [hterm] at hput
    cases layer with
    | function =>
        cases hput
        cases happ
    | argument =>
        cases hput
        rw [happ] at hvalue
        cases hvalue

/-- Turns lead down through the layers to a redex, with nothing but a pause for each of them. -/
theorem Shows.exists_descent {inner : List (Term.Layer Atom)} (hquiet : quiet.Quiet)
    (hshows : session.Shows (.going outer (Term.within inner term)))
    (hwaiting : ∀ layer ∈ inner, layer.Waiting) (happ : term.isApp = true) :
    ∃ next, Drives quiet.recording (none, session) (none, next) ∧
      next.Shows (.going (inner ++ outer) term) ∧
      next.around next.world = (session.around session.world).behind inner.length := by
  induction inner generalizing term with
  | nil => exact ⟨session, .refl, hshows, rfl⟩
  | cons layer inner ih =>
      obtain ⟨hlayer, hinner⟩ := List.forall_mem_cons.mp hwaiting
      obtain ⟨reached, hdrives, hreached, haround⟩ := ih hshows hinner (by cases layer <;> rfl)
      obtain ⟨next, hturns, hnext, haround'⟩ := hreached.exists_down hquiet hlayer happ
      exact ⟨next, hdrives.tail hturns, hnext, haround'.trans (congrArg (·.behind 1) haround)⟩

end Descending

/-! ### Resumed runs -/

/-- Runs without a budget of two sessions ask and tell the host the same and end alike, but the
second one makes so many pauses more. -/
structure Resumes (host : Host σ) (session resumed : Session σ) (pauses : Nat) (log : Bool) :
    Prop where
  /-- Up to any step of the one, all contacts with the host are those up to a step of the other. -/
  tells_iff : ∀ contacts, session.Tells host contacts ↔ resumed.Tells host contacts
  /-- Both runs end, or none of them. -/
  ends_iff : (∃ fuel outcome, session.run host fuel none log = .ok outcome) ↔
    ∃ fuel outcome, resumed.run host fuel none log = .ok outcome
  /-- If they end, then alike. -/
  ends_alike : ∀ fuel fuel' failure failure' last last',
    session.recorded.run host.recording fuel none log = .ok (failure, last) →
    resumed.recorded.run host.recording fuel' none log = .ok (failure', last') →
    failure' = failure ∧ last'.world.2.contacts = last.world.2.contacts ∧
      last'.world.2.pauses = last.world.2.pauses + pauses ∧
      ∃ text, Finishes (fun fuel => last.machine.listing fuel) text ∧
        Finishes (fun fuel => last'.machine.listing fuel) text

/-- A run that is recorded ends if it does without a record. -/
theorem ends_iff_recorded (session : Session σ) (budget : Option Nat) (log : Bool) :
    (∃ fuel outcome, session.run host fuel budget log = .ok outcome) ↔
      ∃ fuel outcome, session.recorded.run host.recording fuel budget log = .ok outcome := by
  constructor
  · rintro ⟨fuel, outcome, hrun⟩
    replace hrun : (session.recorded.map Prod.fst).run host fuel budget log = .ok outcome := hrun
    obtain ⟨outcome', hrun', _⟩ := (Host.images_recording host).run_eq_ok_iff.mp hrun
    exact ⟨fuel, outcome', hrun'⟩
  · rintro ⟨fuel, outcome, hrun⟩
    exact ⟨fuel, _, (Host.images_recording host).run_eq_ok_iff.mpr ⟨outcome, hrun, rfl⟩⟩

section Catching

variable {session resumed : Session σ} {caught : Session (τ × Journal)} {pauses fuel : Nat}
  {log : Bool} {outcome : Outcome (σ × Journal)}
  (hview : host.Images view quiet) (hquiet : quiet.Quiet)
  (hdescent : Drives quiet.recording
    (none, resumed.recorded.map (Prod.map view (Journal.behind 0))) (none, caught))
  (htwins : caught.Twins (session.recorded.map (Prod.map view (Journal.behind pauses))))
include hview hquiet hdescent htwins

theorem exists_run_resumed
    (hrun : session.recorded.run host.recording fuel none log = .ok outcome) :
    ∃ outcome', Finishes (fun fuel => resumed.recorded.run host.recording fuel none log) outcome' ∧
      outcome'.1 = outcome.1 ∧
      Twins (outcome.2.map (Prod.map view (Journal.behind pauses)))
        (outcome'.2.map (Prod.map view (Journal.behind 0))) := by
  have himage := (hview.recording pauses).run_eq_ok_iff.mpr ⟨outcome, hrun, rfl⟩
  obtain ⟨image, hcaught, hfailure, hlast⟩ := htwins.symm.finishes_run hquiet.deaf_recording himage
  obtain ⟨fuel', hresumed⟩ := ((hdescent.finishes_run_iff log).mpr hcaught).exists_ok
  obtain ⟨outcome', hrun', rfl⟩ := (hview.recording 0).run_eq_ok_iff.mp hresumed
  exact ⟨outcome', .of_ok (fun hfuel => run_mono hfuel host.recording none log _) hrun', hfailure,
    hlast⟩

theorem exists_run_of_resumed
    (hrun : resumed.recorded.run host.recording fuel none log = .ok outcome) :
    ∃ fuel outcome', session.recorded.run host.recording fuel none log = .ok outcome' := by
  have himage := (hview.recording 0).run_eq_ok_iff.mpr ⟨outcome, hrun, rfl⟩
  have hresumed := Finishes.of_ok (fun hfuel => run_mono hfuel quiet.recording none log _) himage
  obtain ⟨fuel', hcaught⟩ := ((hdescent.finishes_run_iff log).mp hresumed).exists_ok
  obtain ⟨image, hsession, _⟩ := htwins.finishes_run hquiet.deaf_recording hcaught
  obtain ⟨fuel'', hsession⟩ := hsession.exists_ok
  obtain ⟨outcome', hrun', _⟩ := (hview.recording pauses).run_eq_ok_iff.mp hsession
  exact ⟨fuel'', outcome', hrun'⟩

theorem tells_resumed {contacts : List Contact} (htells : session.Tells host contacts) :
    resumed.Tells host contacts := by
  obtain ⟨last, hdrives, rfl⟩ := htells
  have himage : Drives quiet.recording
      (none, session.recorded.map (Prod.map view (Journal.behind pauses)))
      (none, last.map (Prod.map view (Journal.behind pauses))) :=
    (hview.recording pauses).drives_iff.mpr ⟨last, hdrives, rfl⟩
  obtain ⟨reached, hreached, hlast⟩ := htwins.symm.drives hquiet.deaf_recording himage
  obtain ⟨last', hdrives', rfl⟩ := (hview.recording 0).drives_iff.mp (hdescent.trans hreached)
  exact ⟨last', hdrives', congrArg (·.2.contacts) hlast.world_eq⟩

theorem tells_of_resumed {contacts : List Contact} (h : resumed.machine.Settled)
    (htells : resumed.Tells host contacts) : session.Tells host contacts := by
  obtain ⟨last, hdrives, rfl⟩ := htells
  have himage : Drives quiet.recording
      (none, resumed.recorded.map (Prod.map view (Journal.behind 0)))
      (none, last.map (Prod.map view (Journal.behind 0))) :=
    (hview.recording 0).drives_iff.mpr ⟨last, hdrives, rfl⟩
  rcases Relation.ReflTransGen.total_of_right_unique turns_rightUnique hdescent himage with
    hafter | hbefore
  · obtain ⟨reached, hreached, hlast⟩ := htwins.drives hquiet.deaf_recording hafter
    obtain ⟨last', hdrives', rfl⟩ := (hview.recording pauses).drives_iff.mp hreached
    exact ⟨last', hdrives', congrArg (·.2.contacts) hlast.world_eq⟩
  -- On the way down there are no contacts yet.
  · have hmore := contacts_prefix_of_drives hbefore (hdrives.settled h)
    have hnone : caught.world.2.contacts = [] :=
      congrArg (·.2.contacts) htwins.world_eq.symm
    rw [hnone] at hmore
    exact ⟨session.recorded, .refl, (List.prefix_nil.mp hmore).symm⟩

/-- A session that caught up with a twin resumes it. -/
theorem resumes_of_twins (h : resumed.machine.Settled) :
    session.Resumes host resumed pauses log where
  tells_iff _ :=
    ⟨tells_resumed hview hquiet hdescent htwins, tells_of_resumed hview hquiet hdescent htwins h⟩
  ends_iff := by
    rw [ends_iff_recorded session, ends_iff_recorded resumed]
    constructor
    · rintro ⟨fuel, outcome, hrun⟩
      obtain ⟨outcome', hrun', _⟩ := exists_run_resumed hview hquiet hdescent htwins hrun
      obtain ⟨fuel', hrun'⟩ := hrun'.exists_ok
      exact ⟨fuel', outcome', hrun'⟩
    · rintro ⟨fuel, outcome, hrun⟩
      exact exists_run_of_resumed hview hquiet hdescent htwins hrun
  ends_alike fuel fuel' failure failure' last last' hrun hrun' := by
    obtain ⟨outcome, hresumed, hfailure, hlast⟩ :=
      exists_run_resumed hview hquiet hdescent htwins hrun
    obtain rfl := hresumed.det
      (.of_ok (fun hfuel => run_mono hfuel host.recording none log _) hrun')
    obtain ⟨text, hlisting, hlisting'⟩ := hlast.alike.exists_listing
    exact ⟨hfailure, congrArg (·.2.contacts) hlast.world_eq, congrArg (·.2.pauses) hlast.world_eq,
      text, hlisting, hlisting'⟩

end Catching

variable {session : Session σ} {text : String}

/-- A machine that begins to evaluate the whole term of another one catches up with it. -/
theorem At.resumes {resumed : Session σ} {layers : List (Layer Atom)} {redex : Layout Atom}
    (hat : session.At layers redex) (hassembler : session.machine.assembler = {})
    (hsplitter : session.machine.splitter = {})
    (hshows : resumed.Shows (.enter [] (within layers redex).term))
    (haround : ∀ notes : List Call, resumed.around notes = ⟨{}, {}, notes⟩)
    (hview : host.Images view quiet) (hquiet : quiet.Quiet)
    (hsame : view resumed.world = view session.world) (log : Bool) :
    session.Resumes host resumed layers.length log := by
  have happ : (Term.within (layers.map Layer.term) redex.term).isApp = true :=
    Term.isApp_within hat.isApp
  rw [Layout.term_within, Term.Stage.enter_of_isApp happ] at hshows
  have hstarted : (resumed.recorded.map (Prod.map view (Journal.behind 0))).Shows
    (.going [] (Term.within (layers.map Layer.term) redex.term)) := hshows
  have hwaiting : ∀ layer ∈ layers.map Layer.term, layer.Waiting :=
    List.forall_mem_map.mpr fun layer hmem => Layer.waiting_term (hat.waiting layer hmem)
  obtain ⟨caught, hdescent, hcaught, hbehind⟩ :=
    hstarted.exists_descent hquiet hwaiting hat.isApp
  rw [List.append_nil] at hcaught
  have hthere : (session.recorded.map (Prod.map view (Journal.behind layers.length))).Shows
    (.going (layers.map Layer.term) redex.term) := ⟨layers, redex, hat, rfl, rfl⟩
  refine resumes_of_twins hview hquiet hdescent ⟨hcaught.alike hthere rfl, ?_⟩ (hshows.settled rfl)
  -- Neither machine has an unfinished character, and the pauses on the way down are counted.
  have hassembler' : resumed.machine.assembler = {} :=
    congrArg Surroundings.assembler (haround [])
  have hsplitter' : resumed.machine.splitter = {} := congrArg Surroundings.splitter (haround [])
  rw [hbehind]
  simp [Session.around, Surroundings.behind, recorded, Session.map, hassembler, hsplitter,
    hassembler', hsplitter', hsame, Journal.behind]

/-- A running program can be resumed from its text. Before a step where no output waits for the
unit and no character is unfinished, take the text of the program, with the brackets for blanks,
and load it into an empty machine in the same world. If the host acts as one that pauses and
diagnostics do not change, a run without a budget goes on alike in both machines: it asks and
tells the host the same, and ends with the same result and the same text, or in neither. The
new machine pauses more often by the length of the path. -/
theorem run_resumes (h : Reachable host session) (hgoing : session.machine.ended = false)
    (hwritable : ∀ ref number, session.machine.arena.node? ref ≠ some (.leaf (.pending number)))
    (hassembler : session.machine.assembler.expected = .lead)
    (hsplitter : session.machine.splitter.owed = [])
    (hview : host.Images view quiet) (hquiet : quiet.Quiet) :
    ∃ text, Finishes (fun fuel => session.machine.listing fuel) text ∧
      ∀ loud, ∃ resumed,
        Finishes (fun fuel => load host fuel (Listing.unbracket text) loud ⟨.empty, session.world⟩)
          (none, resumed) ∧
        (loud = false → view resumed.world = view session.world) ∧
        (view resumed.world = view session.world → ∀ log,
          session.Resumes host resumed session.machine.cursor.path.length log) := by
  cases h.settled with
  | empty hempty => simp [hempty, Machine.ended, Machine.empty] at hgoing
  | done hdone => simp [Machine.ended, hdone.redex_eq] at hgoing
  | @reducing layers redex hat =>
      have hclosed := hat.keeps.sound.1
      have hprogram := Arena.isProgram_listing hclosed
        (hat.keeps.writable_iff.mpr hwritable) (some redex.root)
      have hlisting := hat.keeps.isTree.holds.finishes_listing (some redex.root)
      rw [← hat.keeps.root_eq, ← hat.redex_eq] at hlisting
      rw [← hat.redex_eq] at hprogram
      refine ⟨_, hlisting, fun loud => ?_⟩
      obtain ⟨resumed, told, hload, hshows, haround, hperforms, htold⟩ :=
        exists_started hprogram host loud ⟨.empty, session.world⟩
      refine ⟨resumed, hload, fun hsilent => ?_, fun hsame log => ?_⟩
      · rcases htold with hworld | ⟨hloud, _⟩
        · rw [hworld, hview.eq_of_performs hquiet hperforms]
        · rw [hsilent] at hloud
          cases hloud
      · obtain ⟨_, htaken⟩ := h.exists_holds
        rw [hat.path_eq, List.length_map]
        exact At.resumes hat (htaken.eq_empty hassembler) (congrArg Utf8.Splitter.mk hsplitter)
          hshows
          haround hview hquiet hsame log

/-- The identity applied to the unit, and the unit again. -/
theorem isProgram_identity_units : Source.IsProgram ",,'.\"\"".toList
    (.app (.app (.lam (.var 0)) (.leaf .unit)) (.leaf .unit)) :=
  @Arena.isProgram_plain_listing
    (.app 0 (.app 1 (.lam 2 (.var 3 0)) (.leaf 4 .unit)) (.leaf 5 .unit))
    (by simp [Layout.term, Term.Closed, Term.ClosedUnder])
    (by simp [Layout.term, Term.Writable])

/-- A machine that was to make one step has gone down by a layer. -/
theorem exists_run_below (host : Host σ) (world : σ) :
    ∃ session : Session σ, Reachable host session ∧
      session.Shows (.going [.function (.leaf .unit)] (.app (.lam (.var 0)) (.leaf .unit))) ∧
      session.machine.assembler = {} ∧ session.machine.splitter = {} := by
  obtain ⟨started, node, function, argument, hload, hat, hfunction, hargument⟩ :=
    exists_load_app isProgram_identity_units host ⟨.empty, world⟩
  obtain ⟨_, _, _, haround⟩ := load_accepted (hload 0)
  have happ : function.term.isApp = true := by rw [hfunction]; rfl
  obtain ⟨⟨_, next⟩, hstep, hmakes⟩ := At.step_function hat host happ
  obtain rfl : _ = none := hmakes.failure_eq
  obtain ⟨fuel, hstep⟩ := hstep.exists_ok
  have hover : next.isOver (some 0) = true := by simp [isOver]
  have hturns : Turns host (some 1, started) (some 0, next) :=
    ⟨At.isOver_eq hat (some 1), rfl, fuel, next, hstep, if_pos hover⟩
  obtain ⟨fuel', hrun⟩ := (Drives.finishes_run (.single hturns) hover).exists_ok
  -- Going down changes nothing but the place.
  have hsame : started.around [] = next.around [] :=
    ((Term.Advances.function happ).det (Atom.rule_deterministic _)
      (hmakes.advances ⟨fun _ => none, fun _ => 0⟩ [] ⟨by simp, by simp⟩)).2
  rw [haround] at hsame
  have hnext := hmakes.shows
  rw [hfunction, hargument] at hnext
  exact ⟨next, .run (.load .new (hload 0)) hrun, hnext,
    congrArg Surroundings.assembler hsame.symm, congrArg Surroundings.splitter hsame.symm⟩

/-- A machine that has gone down by a layer is resumed from its text. -/
theorem run_resumes_below : ∃ session resumed : Session (List Call × Journal),
    session.machine.cursor.path.length = 1 ∧
    Finishes (fun fuel => session.machine.listing fuel) ",[,'.\"]\"" ∧
    Finishes (fun fuel => load (Answers.host ⟨fun _ => none, fun _ => 0⟩).recording fuel
      ", ,'.\" \"" false ⟨.empty, session.world⟩) (none, resumed) ∧
    session.Resumes (Answers.host ⟨fun _ => none, fun _ => 0⟩).recording resumed 1 false := by
  obtain ⟨session, hreachable, hshows, hassembler, hsplitter⟩ :=
    exists_run_below (Answers.host ⟨fun _ => none, fun _ => 0⟩).recording ([], {})
  obtain ⟨layers, redex, hat, hlayers, hterm⟩ := hshows
  have hpath : session.machine.cursor.path.length = 1 := by
    rw [hat.path_eq, List.length_map, ← List.length_map Layer.term, hlayers]
    rfl
  have hwritable : (within layers redex).term.Writable := by
    rw [Layout.term_within, hlayers, hterm]
    simp [Term.within, Term.Layer.around, Term.Writable]
  have htext : Finishes (fun fuel => session.machine.listing fuel) ",[,'.\"]\"" := by
    have hlisting := hat.finishes_listing
    rw [hlayers, hterm] at hlisting
    exact hlisting
  have hblank : Listing.unbracket ",[,'.\"]\"" = ", ,'.\" \"" := by cbv
  obtain ⟨text, hlisting, hresumes⟩ := run_resumes hreachable
    (by simp [Machine.ended, hat.redex_eq]) (hat.keeps.writable_iff.mp hwritable)
    (by rw [hassembler]) (by rw [hsplitter])
    (Host.images_recording (Answers.host ⟨fun _ => none, fun _ => 0⟩))
    ⟨fun _ => rfl, fun _ _ => rfl⟩
  obtain rfl := htext.det hlisting
  obtain ⟨resumed, hload, hworld, hall⟩ := hresumes false
  rw [hblank] at hload
  exact ⟨session, resumed, hpath, htext, hload, hpath ▸ hall (hworld rfl) false⟩

/-- A host whose input arrives in its first pause. Its world is the number of its pauses, after
none of which it asks to stop. -/
def lateHost : Host Nat where
  put _ pauses := pauses
  shows _ := false
  get _ pauses := (if pauses = 0 then none else some '\x01', pauses)
  random pauses := (0, pauses)
  log _ pauses := pauses
  report _ pauses := pauses
  sleep pauses := (false, pauses + 1)
  trace _ pauses := pauses

/-- It is not enough that the host never asks to stop. Where the input arrives in the first pause,
a machine that has gone down to it asks too early and is aborted, but the machine that begins
again with its text pauses on the way down, and goes on. -/
theorem not_resumes_late : ∃ session resumed : Session Nat,
    Reachable lateHost session ∧ session.machine.ended = false ∧
    (∀ ref number, session.machine.arena.node? ref ≠ some (.leaf (.pending number))) ∧
    session.machine.assembler.expected = .lead ∧ session.machine.splitter.owed = [] ∧
    (∀ pauses, (lateHost.sleep pauses).1 = false) ∧
    Finishes (fun fuel => session.machine.listing fuel) ",'.[,::\"]" ∧
    Finishes (fun fuel => load lateHost fuel (Listing.unbracket ",'.[,::\"]") false
      ⟨.empty, session.world⟩) (none, resumed) ∧
    ¬ session.Resumes lateHost resumed session.machine.cursor.path.length false := by
  obtain ⟨nodes, left, hload, hbelow, hnone, htext, hreload, haborted, hended⟩ :
      ∃ nodes left : Program,
      load lateHost 9 ",'.,::\"" false ⟨.empty, 0⟩ =
        .ok (none, ⟨⟨nodes, ⟨some 5, some 5, []⟩, {}, {}⟩, 0⟩) ∧
      run lateHost 9 (some 1) false ⟨⟨nodes, ⟨some 5, some 5, []⟩, {}, {}⟩, 0⟩ =
        .ok (none, ⟨⟨nodes, ⟨some 5, some 4, [⟨5, .argument⟩]⟩, {}, {}⟩, 0⟩) ∧
      (∀ ref number, nodes.node? ref ≠ some (.leaf (.pending number))) ∧
      Machine.listing 9 ⟨nodes, ⟨some 5, some 4, [⟨5, .argument⟩]⟩, {}, {}⟩ =
        .ok ",'.[,::\"]" ∧
      (∀ fuel, load lateHost fuel (Listing.unbracket ",'.[,::\"]") false ⟨.empty, 0⟩ =
        .ok (none, ⟨⟨nodes, ⟨some 5, some 5, []⟩, {}, {}⟩, 0⟩)) ∧
      run lateHost.recording 9 none false
        ⟨⟨nodes, ⟨some 5, some 4, [⟨5, .argument⟩]⟩, {}, {}⟩, (0, {})⟩ =
          .ok (some .aborted, ⟨.empty, (0, ⟨[.get none none,
            .report "runtime error: program aborted", .log ",'.[,::\"]"], 0⟩)⟩) ∧
      run lateHost.recording 9 none false
        ⟨⟨nodes, ⟨some 5, some 5, []⟩, {}, {}⟩, (0, {})⟩ =
          .ok (none, ⟨⟨left, ⟨some 7, none, []⟩, {}, {}⟩,
            (2, ⟨[.get none (some '\x01')], 2⟩)⟩) := by
    refine ⟨⟨#[some (.var 0), some (.lam 0), some (.leaf .get), some (.leaf .unit),
      some (.app 2 3), some (.app 1 4)], []⟩, ⟨#[none, none, some (.var 1), some (.app 2 4),
      some (.var 0), none, some (.lam 3), some (.lam 6)], [5, 1, 0]⟩, by cbv, by cbv,
      fun ref number => ?_, by cbv, fun fuel => by cbv, by cbv, by cbv⟩
    rcases ref with _ | _ | _ | _ | _ | _ | ref <;> simp [Arena.node?]
  refine ⟨_, _, .run (.load .new hload) hbelow, rfl, hnone, rfl, rfl, fun _ => rfl,
    .of_ok (fun hfuel => Arena.listing_mono hfuel _ _ _) htext, ⟨0, fun fuel _ => hreload fuel⟩,
    fun hresumes => ?_⟩
  cases (hresumes.ends_alike 9 9 _ _ _ _ haborted hended).1

end Session

end LambdaMachine
