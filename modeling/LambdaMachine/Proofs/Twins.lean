import LambdaMachine.Proofs.Alike
import LambdaMachine.Proofs.Faultless
import LambdaMachine.Proofs.Running
import LambdaMachine.Proofs.Showing

/-!
# Twin sessions

Sessions are twins if they are in one world and their machines are alike. A host that takes no
diagnostics cannot tell them apart: every step leads from twins to twins
(`Twins.finishes_step`), and so does a run (`Twins.finishes_run`).
-/

namespace LambdaMachine.Session

open Layout (Layer within)

variable {σ : Type} {host : Host σ} {session session' next last last' : Session σ}
  {layers layers' : List (Layer Atom)} {redex redex' : Layout Atom}
  {stage : Term.Stage Atom Failure} {budget : Option Nat} {fuel : Nat} {failure : Failure}
  {outcome : Outcome σ}

/-! ### Twins -/

/-- The sessions are in one world, with the same unfinished characters and alike machines. -/
structure Twins (session session' : Session σ) : Prop where
  alike : session.machine.Alike session'.machine
  around_eq : session'.around session'.world = session.around session.world

theorem Twins.symm (h : session.Twins session') : session'.Twins session :=
  ⟨h.alike.symm, h.around_eq.symm⟩

theorem Twins.world_eq (h : session.Twins session') : session'.world = session.world :=
  congrArg Surroundings.world h.around_eq

/-- Sessions at the same stage of an evaluation have alike machines. -/
theorem Shows.alike (hshows : session.Shows stage) (hshows' : session'.Shows stage)
    (hnone : stage.failure? = none) : session.machine.Alike session'.machine := by
  cases stage with
  | going _ _ =>
      obtain ⟨layers, redex, hat, rfl, rfl⟩ := hshows
      obtain ⟨layers', redex', hat', hlayers, hterm⟩ := hshows'
      exact .reducing hat hat' hlayers.symm hterm.symm
  | ended result =>
      cases result with
      | ok value =>
          obtain ⟨whole, hdone, rfl⟩ := hshows
          obtain ⟨whole', hdone', hterm⟩ := hshows'
          exact .of_holds hdone.keeps.isTree.holds hdone.keeps.root_eq hdone.redex_eq
            hdone'.keeps.isTree.holds hdone'.keeps.root_eq hdone'.redex_eq hterm.symm
      | error failure => cases hnone

/-- An operand that is no numeral leaves a marker in the place of the redex. -/
theorem At.marks_of_step (hat : session.At layers redex)
    (hstep : session.step host fuel = .ok (some .notANumeral, last)) :
    last.Marks (layers.map Layer.term) := by
  obtain ⟨⟨node, function, argument⟩, head, hreduces, hrefuses, _⟩ :=
    exists_reduces_of_step hstep rfl
  obtain ⟨left, right, rfl, rfl, rfl, hfunction, hargument⟩ :=
    hat.exists_of_focus hreduces.redex_eq hreduces.focus_eq
  have hread := (hat.keeps.isTree.of_within layers).holds.2.1.read_root
  obtain rfl := Except.ok.inj (hreduces.read_eq.symm.trans hread)
  obtain ⟨ref, rfl⟩ : ∃ ref, left = .leaf ref .put := by
    cases left with
    | leaf ref atom =>
        cases hrefuses
        exact ⟨ref, rfl⟩
    | _ => cases hrefuses
  by_cases hcounts : ∃ number, right.term.Counts number
  · obtain ⟨number, hcounts⟩ := hcounts
    have htold : (session.telling host (.leaf ref .put)).At layers
      (.app node (.leaf ref .put) right) := hat
    obtain ⟨outcome, htake, _, _, hmatch⟩ := htold.finishes_takeNumeral host hcounts
    have htaken : Finishes (fun fuel => session.step host fuel) outcome := by
      simp only [hat.step_ready host hfunction hargument]
      exact .bind_ok hread htake
    obtain rfl := (finishes_of_step hstep).det htaken
    cases number with
    | some n => cases hmatch.1
    | none => exact hmatch.2
  · rw [(hat.hangs host ⟨right.term, rfl, hargument, hcounts⟩).step_eq] at hstep
    cases hstep

/-- A step that is refused leaves alike machines alike. -/
theorem alike_of_refused {fuel' : Nat} (hat : session.At layers redex)
    (hat' : session'.At layers' redex') (hlayers : layers.map Layer.term = layers'.map Layer.term)
    (hterm : redex.term = redex'.term) (hstep : session.step host fuel = .ok (some failure, last))
    (hstep' : session'.step host fuel' = .ok (some failure, last')) :
    last.machine.Alike last'.machine := by
  by_cases hfailure : failure = .notANumeral
  · subst hfailure
    obtain ⟨whole, hholds, hroot, hredex, hwhole⟩ := hat.marks_of_step hstep
    obtain ⟨whole', hholds', hroot', hredex', hwhole'⟩ := hat'.marks_of_step hstep'
    exact .of_holds hholds hroot hredex hholds' hroot' hredex' (by rw [hwhole, hwhole', hlayers])
  · obtain ⟨_, _, _, _, hstays⟩ := exists_reduces_of_step hstep rfl
    obtain ⟨_, _, _, _, hstays'⟩ := exists_reduces_of_step hstep' rfl
    have hlast : last.At layers redex := by
      unfold At
      rwa [(hstays hfailure).arena_eq, (hstays hfailure).cursor_eq]
    have hlast' : last'.At layers' redex' := by
      unfold At
      rwa [(hstays' hfailure).arena_eq, (hstays' hfailure).cursor_eq]
    exact .reducing hlast hlast' hlayers hterm

/-- A step leads from twins to twins, or is refused to both for the same reason. -/
theorem Twins.finishes_step (h : session.Twins session') (hdeaf : host.Deaf)
    (hstep : session.step host fuel = .ok outcome) :
    ∃ outcome', Finishes (fun fuel => session'.step host fuel) outcome' ∧
      outcome'.1 = outcome.1 ∧ outcome.2.Twins outcome'.2 := by
  cases h.alike with
  | ended hredex hredex' _ _ =>
      rw [step_of_ended hredex] at hstep
      cases hstep
      exact ⟨_, .of_eq (step_of_ended hredex'), rfl, h⟩
  | @reducing layers layers' redex redex' hat hat' hlayers hterm =>
      obtain ⟨text, hlisting, hlisting'⟩ := h.alike.exists_listing
      rcases At.exists_advance hat hdeaf hlisting with
        ⟨_, stage, hstep₁, hfailure, hshows, hadvances⟩ | hstalled
      · obtain rfl := (finishes_of_step hstep).det hstep₁
        rcases At.exists_advance hat' hdeaf hlisting' with
          ⟨outcome', stage', hstep', hfailure', hshows', hadvances'⟩ | hstalled
        · rw [hlayers, hterm, ← h.around_eq] at hadvances
          obtain ⟨rfl, haround⟩ := hadvances.det (Atom.rule_deterministic _) hadvances'
          refine ⟨outcome', hstep', hfailure'.trans hfailure.symm, ?_, haround.symm⟩
          cases hnone : stage.failure? with
          | none => exact hshows.alike hshows' hnone
          | some failure =>
              obtain ⟨_, last⟩ := outcome
              obtain ⟨_, last'⟩ := outcome'
              obtain rfl := hfailure.trans hnone
              obtain rfl := hfailure'.trans hnone
              obtain ⟨fuel', hstep'⟩ := hstep'.exists_ok
              exact alike_of_refused hat hat' hlayers hterm hstep hstep'
        · rw [← hterm] at hstalled
          rw [(At.hangs hat host hstalled).step_eq] at hstep
          cases hstep
      · rw [(At.hangs hat host hstalled).step_eq] at hstep
        cases hstep

theorem Twins.isOver_eq (h : session.Twins session') (budget : Option Nat) :
    session'.isOver budget = session.isOver budget := by
  unfold isOver
  rw [h.alike.ended_eq]

/-- Twins are twins in any other world, too. -/
theorem Twins.elsewhere (h : session.Twins session') (world : σ) :
    Twins ⟨session.machine, world⟩ ⟨session'.machine, world⟩ := by
  have hassembler := congrArg Surroundings.assembler h.around_eq
  have hsplitter := congrArg Surroundings.splitter h.around_eq
  refine ⟨h.alike, ?_⟩
  exact congrArg₂ (fun assembler splitter => Surroundings.mk assembler splitter world)
    hassembler hsplitter

/-- A pause leads from twins to twins, or stops both. -/
theorem Twins.exists_pause {paused : Option Failure} (h : session.Twins session')
    (hpause : session.pause host budget = (paused, next)) :
    ∃ next', session'.pause host budget = (paused, next') ∧ next.Twins next' := by
  unfold Session.pause at hpause ⊢
  rw [h.isOver_eq]
  split at hpause
  next hover =>
      cases hpause
      exact ⟨session', if_pos hover, h⟩
  next hgoing =>
      cases hpause
      rw [if_neg hgoing]
      refine ⟨_, ?_, h.elsewhere _⟩
      simp only [h.world_eq]

/-- A turn leads from twins to twins. -/
theorem Twins.turns {budget' : Option Nat} (h : session.Twins session') (hdeaf : host.Deaf)
    (hturns : Turns host (budget, session) (budget', next)) :
    ∃ next', Turns host (budget, session') (budget', next') ∧ next.Twins next' := by
  obtain ⟨hgoing, hbudget, fuel, stepped, hstep, hpause⟩ := hturns
  obtain ⟨⟨_, stepped'⟩, hstep', rfl, htwins⟩ := h.finishes_step hdeaf hstep
  obtain ⟨fuel', hstep'⟩ := hstep'.exists_ok
  obtain ⟨next', hpause', hnext⟩ := htwins.exists_pause hpause
  exact ⟨next', ⟨(h.isOver_eq budget).trans hgoing, hbudget, fuel', stepped', hstep', hpause'⟩,
    hnext⟩

theorem Twins.drives {budget' : Option Nat} (h : session.Twins session') (hdeaf : host.Deaf)
    (hdrives : Drives host (budget, session) (budget', next)) :
    ∃ next', Drives host (budget, session') (budget', next') ∧ next.Twins next' := by
  generalize hlast : (budget', next) = last at hdrives
  induction hdrives generalizing budget' next with
  | refl =>
      cases hlast
      exact ⟨session', .refl, h⟩
  | @tail middle last _ hturns ih =>
      subst hlast
      obtain ⟨middle', hdrives', htwins⟩ := ih rfl
      obtain ⟨next', hturns', hnext⟩ := htwins.turns hdeaf hturns
      exact ⟨next', hdrives'.tail hturns', hnext⟩

/-- Twins stop alike. -/
theorem Twins.stops (h : session.Twins session') (hdeaf : host.Deaf)
    (hstops : session.Stops host budget outcome) :
    ∃ outcome', session'.Stops host budget outcome' ∧ outcome'.1 = outcome.1 ∧
      outcome.2.Twins outcome'.2 := by
  cases hstops with
  | finished hover => exact ⟨_, .finished ((h.isOver_eq budget).trans hover), rfl, h⟩
  | refused hgoing hstep =>
      obtain ⟨⟨_, last'⟩, hstep', rfl, htwins⟩ := h.finishes_step hdeaf hstep
      obtain ⟨fuel', hstep'⟩ := hstep'.exists_ok
      exact ⟨_, .refused ((h.isOver_eq budget).trans hgoing) hstep', rfl, htwins⟩
  | aborted hgoing hstep hpause =>
      obtain ⟨⟨_, stepped'⟩, hstep', rfl, htwins⟩ := h.finishes_step hdeaf hstep
      obtain ⟨fuel', hstep'⟩ := hstep'.exists_ok
      obtain ⟨last', hpause', hlast⟩ := htwins.exists_pause hpause
      exact ⟨_, .aborted ((h.isOver_eq budget).trans hgoing) hstep' hpause', rfl, hlast⟩

/-- A run of twins ends with twins, or for neither. -/
theorem Twins.finishes_run {log : Bool} (h : session.Twins session') (hdeaf : host.Deaf)
    (hrun : session.run host fuel budget log = .ok outcome) :
    ∃ outcome', Finishes (fun fuel => session'.run host fuel budget log) outcome' ∧
      outcome'.1 = outcome.1 ∧ outcome.2.Twins outcome'.2 := by
  obtain ⟨failure, last⟩ := outcome
  obtain ⟨stopped, hdrive, hrest⟩ := run_eq_ok hrun
  obtain ⟨⟨_, reached⟩, hdrives, hstops⟩ := exists_stops hdrive
  obtain ⟨reached', hdrives', htwins⟩ := h.drives hdeaf hdrives
  obtain ⟨⟨failure', stopped'⟩, hstops', hfailure, hstopped⟩ := htwins.stops hdeaf hstops
  obtain rfl : failure = failure' := hfailure.symm
  replace hstopped : stopped.Twins stopped' := hstopped
  have hdrive' := drive_finishes_iff.mpr ⟨_, hdrives', hstops'⟩
  obtain ⟨text, hlisting, hlisting'⟩ := hstopped.alike.exists_listing
  cases failure with
  | some failure =>
      have hfail := finishes_fail_of_listing hlisting host failure
      have hfail' := finishes_fail_of_listing hlisting' host failure
      rw [hstopped.world_eq] at hfail'
      obtain rfl := hfail.det
        (.of_ok (fun hfuel => fail_mono hfuel host failure stopped) hrest)
      exact ⟨_, hdrive'.bind (hfail'.bind (.pure _)), rfl, .empty, rfl⟩
  | none =>
      cases log with
      | false =>
          obtain rfl : last = stopped := hrest
          exact ⟨_, hdrive'.bind (.pure _), rfl, hstopped⟩
      | true =>
          have hlog := finishes_logListing host hlisting stopped.world
          have hlog' : Finishes (fun fuel => stopped'.logListing host fuel)
              ⟨stopped'.machine, host.log text stopped.world⟩ := by
            rw [← hstopped.world_eq]
            exact finishes_logListing host hlisting' stopped'.world
          obtain rfl := hlog.det
            (.of_ok (fun hfuel => logListing_mono hfuel host stopped) hrest)
          exact ⟨_, hdrive'.bind (hlog'.bind (.pure _)), rfl, hstopped.elsewhere _⟩

end LambdaMachine.Session
