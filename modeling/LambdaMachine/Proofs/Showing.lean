import LambdaMachine.Proofs.Stepping

/-!
# Steps under the host itself

A step makes the advance of the evaluation that the noted answers of the host explain. If the
host takes no diagnostics, nothing but these calls changes its world, so it is the advance
under the host itself, apart from what the host is shown before a character. For one step the
text that is shown is fixed, and can be taken for a part of the host (`Host.showing`). That
is how a step is an advance under one host, in one way only (`At.exists_advance`).
-/

namespace LambdaMachine

open Layout (Layer within)

variable {σ : Type} {host : Host σ}

/-! ### Hosts that take no diagnostics -/

namespace Host

/-- Diagnostics do not change the world of the host. -/
def Deaf (host : Host σ) : Prop :=
  ∀ diagnostic world, host.trace diagnostic world = world

/-- The host is asked this, and gives the answer. -/
inductive Does (host : Host σ) : Call → σ → σ → Prop where
  | put {character world} : Does host (.put character) world (host.put character world)
  | get {text answer world world'} (hget : host.get text world = (answer, world')) :
      Does host (.get answer) world world'
  | random {byte world world'} (hrandom : host.random world = (byte, world')) :
      Does host (.random byte) world world'

theorem Performs.eq_of_deaf (hdeaf : host.Deaf) {world world' : σ}
    (h : host.Performs [] world world') : world' = world :=
  h.eq_of_nil id hdeaf

theorem Performs.does (hdeaf : host.Deaf) {call : Call} {world world' : σ}
    (h : host.Performs [call] world world') : host.Does call world world' := by
  generalize hcalls : [call] = calls at h
  induction h with
  | nil => cases hcalls
  | @trace diagnostic _ before _ _ ih =>
      rw [← hdeaf diagnostic before]
      exact ih hcalls
  | put hrest =>
      cases hcalls
      exact hrest.eq_of_deaf hdeaf ▸ .put
  | get hget hrest =>
      cases hcalls
      exact hrest.eq_of_deaf hdeaf ▸ .get hget
  | random hrandom hrest =>
      cases hcalls
      exact hrest.eq_of_deaf hdeaf ▸ .random hrandom

/-- The host that takes this for the text of the program before it gives a character. -/
def showing (host : Host σ) (text : String) : Host σ where
  put := host.put
  shows _ := false
  get _ world := host.get (if host.shows world then some text else none) world
  random := host.random
  log := host.log
  report := host.report
  sleep := host.sleep
  trace := host.trace

end Host

/-! ### Advances under the host itself -/

section Advances

variable {answers : Answers} {assembler assembler' : Utf8.Assembler}
  {splitter splitter' : Utf8.Splitter} {calls : List Call} {world world' : σ}

namespace Surroundings

/-- What is sent under answers that were noted is sent to the host that gave them. -/
theorem send_of_performs {number : Nat} (hdeaf : host.Deaf)
    (hperforms : host.Performs calls world world')
    (hsend : send answers.host number ⟨assembler, splitter, []⟩ =
      .ok ⟨assembler', splitter', calls⟩) :
    send host number ⟨assembler, splitter, world⟩ = .ok ⟨assembler', splitter', world'⟩ := by
  unfold send at hsend ⊢
  cases hpush : assembler.push number with
  | refused => simp [hpush] at hsend
  | taken state =>
      simp only [hpush, Except.ok.injEq, mk.injEq] at hsend ⊢
      obtain ⟨rfl, rfl, rfl⟩ := hsend
      exact ⟨rfl, rfl, (hperforms.eq_of_deaf hdeaf).symm⟩
  | completed character =>
      simp only [hpush, Except.ok.injEq, mk.injEq] at hsend ⊢
      obtain ⟨rfl, rfl, rfl⟩ := hsend
      cases hperforms.does hdeaf
      exact ⟨rfl, rfl, rfl⟩

/-- Whether a number can be sent does not depend on the host. -/
theorem send_eq_error {number : Nat} {failure : Failure}
    (hsend : send answers.host number ⟨assembler, splitter, []⟩ = .error failure) :
    send host number ⟨assembler, splitter, world⟩ = .error failure := by
  unfold send at hsend ⊢
  cases hpush : assembler.push number with
  | refused => simpa [hpush] using hsend
  | taken state => simp [hpush] at hsend
  | completed character => simp [hpush] at hsend

/-- What is received under answers that were noted is received from the host that gave them, if
nothing is shown to it. -/
theorem receive_of_performs {byte : Option UInt8} (hdeaf : host.Deaf)
    (hblind : ∀ text world, host.get text world = host.get none world)
    (hperforms : host.Performs calls world world')
    (hreceive : receive answers.host ⟨assembler, splitter, []⟩ =
      (byte, ⟨assembler', splitter', calls⟩)) :
    receive host ⟨assembler, splitter, world⟩ = (byte, ⟨assembler', splitter', world'⟩) := by
  obtain ⟨owed⟩ := splitter
  cases owed with
  | cons first owed =>
      cases hreceive
      rw [hperforms.eq_of_deaf hdeaf]
      rfl
  | nil =>
      simp only [receive, Answers.host] at hreceive ⊢
      -- The answer that was noted is the one of the host.
      cases hanswer : answers.characters 0 with
      | none =>
          simp only [List.filterMap_nil, List.length_nil, hanswer] at hreceive
          cases hreceive
          cases hperforms.does hdeaf with
          | get hget => rw [← hblind, hget]
      | some character =>
          simp only [List.filterMap_nil, List.length_nil, hanswer] at hreceive
          cases hreceive
          cases hperforms.does hdeaf with
          | get hget => rw [← hblind, hget]

end Surroundings

/-- What a built-in does under answers that were noted it does under the host that gave them, if
nothing is shown to that. -/
theorem Atom.Rule.of_performs {head operand : Term Atom}
    {outcome : Except Failure (Term Atom)} (hdeaf : host.Deaf)
    (hblind : ∀ text world, host.get text world = host.get none world)
    (hperforms : host.Performs calls world world')
    (hrule : Rule answers.host ⟨assembler, splitter, []⟩ head operand outcome
      ⟨assembler', splitter', calls⟩) :
    Rule host ⟨assembler, splitter, world⟩ head operand outcome
      ⟨assembler', splitter', world'⟩ := by
  cases hrule with
  | send hsend => exact .send (Surroundings.send_of_performs hdeaf hperforms hsend)
  | get hreceive =>
      exact .get (Surroundings.receive_of_performs hdeaf hblind hperforms hreceive)
  | getFails hreceive =>
      exact .getFails (Surroundings.receive_of_performs hdeaf hblind hperforms hreceive)
  | random hdraw =>
      cases hdraw
      cases hperforms.does hdeaf with
      | random hrandom => exact .random (by simp only [Surroundings.draw, hrandom])
  -- The others do without a call.
  | put hnumber =>
      rw [hperforms.eq_of_deaf hdeaf]
      exact .put hnumber
  | putFails hnumber =>
      rw [hperforms.eq_of_deaf hdeaf]
      exact .putFails hnumber
  | notNull hatom hoperand =>
      rw [hperforms.eq_of_deaf hdeaf]
      exact .notNull hatom hoperand
  | sendFails hsend =>
      rw [hperforms.eq_of_deaf hdeaf]
      exact .sendFails (Surroundings.send_eq_error hsend)
  | sendMarker =>
      rw [hperforms.eq_of_deaf hdeaf]
      exact .sendMarker
  | notAFunction =>
      rw [hperforms.eq_of_deaf hdeaf]
      exact .notAFunction

/-- So an evaluation that advances under the answers advances under the host. -/
theorem Term.Advances.of_performs {layers : List (Term.Layer Atom)} {term : Term Atom}
    {stage : Term.Stage Atom Failure} (hdeaf : host.Deaf)
    (hblind : ∀ text world, host.get text world = host.get none world)
    (hperforms : host.Performs calls world world')
    (hadvances : Term.Advances (Atom.Rule answers.host) layers term
      ⟨assembler, splitter, []⟩ stage ⟨assembler', splitter', calls⟩) :
    Term.Advances (Atom.Rule host) layers term ⟨assembler, splitter, world⟩ stage
      ⟨assembler', splitter', world'⟩ := by
  cases hadvances with
  | function happ =>
      rw [hperforms.eq_of_deaf hdeaf]
      exact .function happ
  | argument hvalue happ =>
      rw [hperforms.eq_of_deaf hdeaf]
      exact .argument hvalue happ
  | contract hvalue =>
      rw [hperforms.eq_of_deaf hdeaf]
      exact .contract hvalue
  | rule hhead hlam hvalue hrule =>
      exact .rule hhead hlam hvalue (hrule.of_performs hdeaf hblind hperforms)

end Advances

namespace Session

variable {session : Session σ} {layers : List (Layer Atom)} {redex : Layout Atom}
  {stage : Term.Stage Atom Failure} {fuel : Nat} {text : String} {outcome : Outcome σ}

/-- A step is an advance under the host itself, if nothing is shown to it. -/
theorem Makes.advances_rule {calls : List Call} (hdeaf : host.Deaf)
    (hblind : ∀ text world, host.get text world = host.get none world)
    (hmakes : session.Makes host layers redex outcome calls stage) :
    Term.Advances (Atom.Rule host) (layers.map Layer.term) redex.term
      (session.around session.world) stage (outcome.2.around outcome.2.world) := by
  obtain ⟨answers, hexplains⟩ := Answers.exists_explaining calls
  exact (hmakes.advances answers [] hexplains).of_performs hdeaf hblind hmakes.performs

theorem nextChar_showing (host : Host σ) {work : Unit → Except Fault String}
    (hwork : work () = .ok text) (world : σ) :
    (host.showing text).nextChar work world = host.nextChar work world := by
  cases hshown : host.shows world with
  | true => simp [Host.nextChar, Host.showing, hshown, hwork, bind, Except.bind]
  | false => simp [Host.nextChar, Host.showing, hshown]

/-- It makes no difference whether the text of the program is shown to the host or is what the
host takes for it. -/
theorem step_showing (host : Host σ) (hlisting : session.machine.listing fuel = .ok text) :
    session.step (host.showing text) fuel = session.step host fuel := by
  have hget : ∀ redex world, getByte (host.showing text) fuel redex ⟨session.machine, world⟩ =
      getByte host fuel redex ⟨session.machine, world⟩ := by
    intro redex world
    unfold getByte Host.nextByte
    dsimp only
    rw [nextChar_showing host hlisting]
    rfl
  unfold step
  split
  · rfl
  · refine congrArg _ (funext fun focus => ?_)
    split
    · rfl
    · unfold reduce
      refine congrArg _ (funext fun head => ?_)
      dsimp only
      split
      · rfl
      · rfl
      · rfl
      · refine congrArg _ (funext fun operand => ?_)
        split
        · exact hget _ _
        · rfl
      · rfl
      · rfl

/-- A step of a reducing machine is an advance under the host that takes the text of the program for
shown, unless it reads a count that is infinite. -/
theorem At.exists_advance (hat : session.At layers redex) (hdeaf : host.Deaf)
    (hlisting : Finishes (fun fuel => session.machine.listing fuel) text) :
    (∃ outcome stage, Finishes (fun fuel => session.step host fuel) outcome ∧
      outcome.1 = stage.failure? ∧ outcome.2.Shows stage ∧
      Term.Advances (Atom.Rule (host.showing text)) (layers.map Layer.term) redex.term
        (session.around session.world) stage (outcome.2.around outcome.2.world)) ∨
      redex.term.Stalled := by
  refine (hat.makes_or_stalled (host.showing text)).imp_left ?_
  rintro ⟨outcome, calls, stage, hstep, hmakes⟩
  obtain ⟨bound, hlisting⟩ := hlisting
  obtain ⟨bound', hstep⟩ := hstep
  refine ⟨outcome, stage, ⟨max bound bound', fun fuel hfuel => ?_⟩, hmakes.failure_eq, hmakes.shows,
    hmakes.advances_rule hdeaf fun _ _ => rfl⟩
  exact (step_showing host (hlisting fuel (by omega))).symm.trans (hstep fuel (by omega))

end Session

end LambdaMachine
