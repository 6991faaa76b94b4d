import LambdaMachine.Numeral.Value
import LambdaMachine.Proofs.Running

/-!
# Runs that only contract

Contractions are the same whatever the leaves of a term are. A term that comes to a value by
contractions alone may therefore be exchanged for this value where another rule holds, such
as that of counting (`Counts.congr_of_evaluates`). A run of a machine that reduces nothing but
abstractions makes such an evaluation, so it leaves a value that is read as the same number as
the loaded term.
-/

namespace LambdaMachine

open Layout (Layer)

namespace Term

variable {α β ε ε' σ σ' : Type}

/-- The rule under which only abstractions can be applied. -/
def Rule.never : Rule α ε σ := fun _ _ _ _ _ => False

theorem Rule.never_valued : (never : Rule α ε σ).Valued := fun _ _ _ _ _ h => h.elim

/-! ### Other leaves -/

@[simp]
theorem isApp_map (relabel : α → β) (term : Term α) : (term.map relabel).isApp = term.isApp := by
  cases term <;> rfl

@[simp]
theorem descent_map (relabel : α → β) (term : Term α) :
    (term.map relabel).descent = term.descent := by
  simp only [descent, isApp_map]

theorem map_shift (relabel : α → β) (term : Term α) (amount depth : Nat) :
    (term.shift amount depth).map relabel = (term.map relabel).shift amount depth := by
  induction term generalizing depth with
  | lam body ih => simp only [shift, map, ih]
  | app function argument ihf iha => simp only [shift, map, ihf, iha]
  | var index =>
      simp only [shift, map]
      split <;> rfl
  | leaf value => rfl

theorem map_subst (relabel : α → β) (term : Term α) (depth : Nat) (argument : Term α) :
    (term.subst depth argument).map relabel =
      (term.map relabel).subst depth (argument.map relabel) := by
  induction term generalizing depth with
  | lam body ih => simp only [subst, map, ih]
  | app function operand ihf iho => simp only [subst, map, ihf, iho]
  | var index =>
      simp only [subst, map]
      split
      · rfl
      split
      · exact map_shift relabel argument depth 0
      · rfl
  | leaf value => rfl

theorem map_contract (relabel : α → β) (body argument : Term α) :
    (body.contract argument).map relabel = (body.map relabel).contract (argument.map relabel) :=
  map_subst relabel body 0 argument

/-- Contractions alone lead to no failure, and they are made under every rule and with any
leaves. -/
theorem Evaluates.map_of_never {state state' : σ} {term : Term α} {outcome : Except ε (Term α)}
    {steps : Nat} (h : Evaluates Rule.never state term outcome state' steps) :
    ∃ value, outcome = .ok value ∧
      ∀ (rule : Rule β ε' σ') (relabel : α → β) (other : σ'),
        Evaluates rule other (term.map relabel) (.ok (value.map relabel)) other steps := by
  induction h with
  | value hvalue =>
      exact ⟨_, rfl, fun rule relabel other => .value (by rw [isApp_map, hvalue])⟩
  | functionFails _ ih =>
      obtain ⟨_, heq, _⟩ := ih
      cases heq
  | argumentFails _ _ _ ih =>
      obtain ⟨_, heq, _⟩ := ih
      cases heq
  | contract _ _ _ ihf iha ihb =>
      obtain ⟨_, hhead, hfunction⟩ := ihf
      cases hhead
      obtain ⟨_, hoperand, hargument⟩ := iha
      cases hoperand
      obtain ⟨value, rfl, hbody⟩ := ihb
      refine ⟨value, rfl, fun rule relabel other => ?_⟩
      have hcontracted := hbody rule relabel other
      rw [map_contract] at hcontracted
      have hwhole := Evaluates.contract (hfunction rule relabel other)
        (hargument rule relabel other) hcontracted
      rw [descent_map, descent_map] at hwhole
      exact hwhole
  | rule _ _ _ hrule => exact hrule.elim

/-! ### Equal outcomes -/

/-- The terms have the same outcomes, although it may take one of them more steps. -/
def SameOutcomes (rule : Rule α ε σ) (term term' : Term α) : Prop :=
  ∀ state outcome state', (∃ steps, Evaluates rule state term outcome state' steps) ↔
    ∃ steps, Evaluates rule state term' outcome state' steps

section SameOutcomes

variable {rule : Rule α ε σ} {term term' value : Term α} {state state' : σ}
  {outcome : Except ε (Term α)} {steps : Nat}

theorem SameOutcomes.symm (h : SameOutcomes rule term term') : SameOutcomes rule term' term :=
  fun state outcome state' => (h state outcome state').symm

/-- A term has the outcomes of its value. -/
theorem SameOutcomes.of_value (hrule : rule.Deterministic) (hvalue : value.isApp = false)
    (h : ∀ state, Evaluates rule state term (.ok value) state steps) :
    SameOutcomes rule term value := by
  intro state outcome state'
  constructor
  · rintro ⟨steps', heval⟩
    obtain ⟨rfl, rfl, _⟩ := (h state).det hrule heval
    exact ⟨0, .value hvalue⟩
  · rintro ⟨steps', heval⟩
    obtain ⟨rfl, rfl, rfl⟩ := heval.eq_of_value hvalue
    exact ⟨steps, h _⟩

theorem SameOutcomes.evaluates_app (h : SameOutcomes rule term term') {argument : Term α}
    (heval : Evaluates rule state (.app term argument) outcome state' steps) :
    ∃ steps', Evaluates rule state (.app term' argument) outcome state' steps' := by
  cases heval with
  | value hvalue => cases hvalue
  | functionFails hfunction =>
      obtain ⟨_, hfunction⟩ := (h _ _ _).mp ⟨_, hfunction⟩
      exact ⟨_, .functionFails hfunction⟩
  | argumentFails hfunction hargument =>
      obtain ⟨_, hfunction⟩ := (h _ _ _).mp ⟨_, hfunction⟩
      exact ⟨_, .argumentFails hfunction hargument⟩
  | contract hfunction hargument hbody =>
      obtain ⟨_, hfunction⟩ := (h _ _ _).mp ⟨_, hfunction⟩
      exact ⟨_, .contract hfunction hargument hbody⟩
  | rule hfunction hhead hargument hrule =>
      obtain ⟨_, hfunction⟩ := (h _ _ _).mp ⟨_, hfunction⟩
      exact ⟨_, .rule hfunction hhead hargument hrule⟩

/-- The function part of an application may be exchanged for one with the same outcomes. -/
theorem SameOutcomes.app (h : SameOutcomes rule term term') (argument : Term α) :
    SameOutcomes rule (.app term argument) (.app term' argument) :=
  fun _ _ _ =>
    ⟨fun ⟨_, heval⟩ => h.evaluates_app heval, fun ⟨_, heval⟩ => h.symm.evaluates_app heval⟩

end SameOutcomes

/-- A term counts to what its value counts to, if it comes to it by contractions alone. -/
theorem counts_iff_of_evaluates {term value : Term α} {state state' : σ} {steps : Nat}
    (h : Evaluates (Rule.never : Rule α ε σ) state term (.ok value) state' steps)
    (number : Option Nat) : term.Counts number ↔ value.Counts number := by
  obtain ⟨_, heq, hmap⟩ := h.map_of_never
  cases heq
  have hvalue : (value.map fun _ => Tally.inert).isApp = false := by
    rw [isApp_map]
    exact h.isApp_eq_false Rule.never_valued rfl
  have hsame : SameOutcomes Tally.Rule (term.map fun _ => Tally.inert)
      (value.map fun _ => Tally.inert) :=
    .of_value Tally.rule_deterministic hvalue fun other => hmap _ _ other
  have hcounting : SameOutcomes Tally.Rule term.counting value.counting :=
    (hsame.app (.leaf .increment)).app (.leaf (.count 0))
  constructor
  · rintro ⟨outcome, steps, heval, hnumber⟩
    obtain ⟨steps', heval'⟩ := (hcounting _ _ _).mp ⟨steps, heval⟩
    exact ⟨outcome, steps', heval', hnumber⟩
  · rintro ⟨outcome, steps, heval, hnumber⟩
    obtain ⟨steps', heval'⟩ := (hcounting _ _ _).mpr ⟨steps, heval⟩
    exact ⟨outcome, steps', heval', hnumber⟩

/-- Where only abstractions are applied, the advances are those without a rule. -/
theorem Advances.never {rule : Rule α ε σ} {layers : List (Layer α)} {term : Term α}
    {state state' : σ} {stage : Stage α ε} (h : Advances rule layers term state stage state')
    (hlam : ∀ head operand, term = .app head operand → head.isApp = false →
      operand.isApp = false → head.isLam = true) (other : σ') :
    Advances Rule.never layers term other stage other := by
  cases h with
  | function happ => exact .function happ
  | argument hvalue happ => exact .argument hvalue happ
  | contract hvalue => exact .contract hvalue
  | rule hhead hnot hvalue _ =>
      rw [hlam _ _ rfl hhead hvalue] at hnot
      cases hnot

end Term

namespace Session

variable {σ : Type} {host : Host σ} {session next last : Session σ} {layers : List (Layer Atom)}
  {redex : Layout Atom} {stage : Term.Stage Atom Failure} {text : String} {fuel : Nat} {log : Bool}

/-- What the session reduces at once, if anything, is an abstraction that is applied. -/
def Contracts (session : Session σ) : Prop :=
  ∀ node function argument, session.machine.cursor.redex = some node →
    session.machine.arena.focus node = .ok (.ready function argument) →
    ∃ body, session.machine.arena.read function = .ok (.lam body)

theorem At.isLam_of_contracts (hat : session.At layers redex) (hcontracts : session.Contracts) :
    ∀ head operand, redex.term = .app head operand → head.isApp = false → operand.isApp = false →
      head.isLam = true := by
  intro head operand hterm hhead hoperand
  obtain ⟨node, function, argument, rfl⟩ := Layout.exists_of_isApp hat.isApp
  cases hterm
  have hholds := (hat.keeps.isTree.of_within layers).holds
  obtain ⟨body, hread⟩ := hcontracts node _ _ hat.redex_eq (hholds.focus_ready hhead hoperand)
  rw [hholds.2.1.read_root] at hread
  cases function with
  | lam ref body => rfl
  | _ => cases hread

/-- A turn that contracts makes an advance without a rule. -/
theorem Turns.exists_advances_never {before after : Option Nat × Session σ}
    (hturns : Turns host before after) (hcontracts : before.2.Contracts)
    (hshows : before.2.Shows stage) (hnone : stage.failure? = none) :
    ∃ layers term stage', stage = .going layers term ∧
      Term.Advances Term.Rule.never layers term () stage' () ∧ after.2.Shows stage' ∧
      stage'.failure? = none := by
  obtain ⟨hgoing, _, _, stepped, hstep, hpause⟩ := hturns
  cases stage with
  | ended result =>
      cases result with
      | error failure => cases hnone
      | ok value =>
          rw [hshows.isOver_of_ended] at hgoing
          cases hgoing
  | going layers term =>
      obtain ⟨layers, redex, hat, rfl, rfl⟩ := hshows
      rcases At.step_cases hat host with ⟨_, calls, stage, hfinishes, hmakes⟩ | hhangs
      · obtain rfl := hfinishes.det (finishes_of_step hstep)
        obtain ⟨answers, hexplains⟩ := Answers.exists_explaining calls
        have hadvances := hmakes.advances answers [] hexplains
        exact ⟨_, _, stage, rfl, hadvances.never (At.isLam_of_contracts hat hcontracts) (),
          hmakes.shows.of_machine (machine_of_pause hpause), hmakes.failure_eq.symm⟩
      · rw [hhangs.step_eq] at hstep
        cases hstep

/-- A run without a budget stays so. -/
theorem Drives.budget_eq_none {before after : Option Nat × Session σ}
    (hdrives : Drives host before after) (hbudget : before.1 = none) : after.1 = none := by
  induction hdrives with
  | refl => exact hbudget
  | tail _ hturns ih => rw [hturns.budget_eq, ih, Option.map_none]

/-- Turns that contract, up to where a run without a budget ends, are a run without a rule. -/
theorem Drives.exists_runs_never {before after : Option Nat × Session σ}
    (hdrives : Drives host before after) (hover : after.2.isOver none = true)
    (hcontracts : ∀ reached, Drives host before reached → reached.2.Contracts)
    (hshows : before.2.Shows stage) (hnone : stage.failure? = none) :
    ∃ value steps, Term.Runs Term.Rule.never stage () (.ok value) () steps ∧
      after.2.Shows (.ended (.ok value)) := by
  induction hdrives using Relation.ReflTransGen.head_induction_on generalizing stage with
  | refl =>
      cases stage with
      | going layers term =>
          rw [hshows.isOver_of_going] at hover
          cases hover
      | ended result =>
          cases result with
          | error failure => cases hnone
          | ok value => exact ⟨value, 0, .ended, hshows⟩
  | @head before middle hturns _ ih =>
      obtain ⟨layers, term, stage', rfl, hadvances, hshows', hnone'⟩ :=
        hturns.exists_advances_never (hcontracts _ .refl) hshows hnone
      obtain ⟨value, steps, hruns, hended⟩ :=
        ih (fun reached h => hcontracts reached (.head hturns h)) hshows' hnone'
      exact ⟨value, steps + 1, .advance hadvances hruns, hended⟩

/-- A machine that holds a term from its start holds a tree of it. -/
theorem Shows.exists_isTree {term : Term Atom} (hshows : session.Shows (.enter [] term)) :
    ∃ whole, session.machine.cursor.root = some whole.root ∧
      session.machine.arena.IsTree whole ∧ whole.term = term := by
  cases happ : term.isApp with
  | true =>
      rw [Term.Stage.enter_of_isApp happ] at hshows
      obtain ⟨layers, redex, hat, hlayers, rfl⟩ := hshows
      obtain rfl := List.map_eq_nil_iff.mp hlayers
      exact ⟨redex, hat.keeps.root_eq, hat.keeps.isTree, rfl⟩
  | false =>
      rw [Term.Stage.enter_of_value happ] at hshows
      obtain ⟨whole, hdone, rfl⟩ := hshows
      exact ⟨whole, hdone.keeps.root_eq, hdone.keeps.isTree, rfl⟩

theorem contracts_of_over (hover : session.isOver none = true) : session.Contracts := by
  intro node function argument hredex
  simp [isOver, Machine.ended, hredex] at hover

/-- Applying an abstraction to a value takes one turn, if its body is then a value. -/
theorem At.exists_turn {node ref : Ref} {body argument : Layout Atom}
    (hat : session.At [] (.app node (.lam ref body) argument)) (host : Host σ)
    {budget : Option Nat} (hbudget : budget ≠ some 0) (hargument : argument.term.isApp = false)
    (hvalue : (body.term.contract argument.term).isApp = false) :
    ∃ last, Turns host (budget, session) (budget.map (· - 1), last) ∧
      ∀ budget, last.isOver budget = true := by
  obtain ⟨⟨_, last⟩, hstep, hmakes⟩ := hat.step_contract host hargument
  rw [Term.Stage.enter_of_value hvalue] at hmakes
  obtain rfl : _ = none := hmakes.failure_eq
  have hover : ∀ budget, last.isOver budget = true := hmakes.shows.isOver_of_ended
  obtain ⟨fuel, hstep⟩ := hstep.exists_ok
  refine ⟨last, ⟨?_, rfl, fuel, last, hstep, ?_⟩, hover⟩
  · rw [hat.isOver_eq]
    exact beq_false_of_ne hbudget
  · simp only [pause, hover, if_true]

/-- The identity applied to the unit. -/
theorem isProgram_identity_unit :
    Source.IsProgram ",'.\"".toList (.app (.lam (.var 0)) (.leaf .unit)) := by
  have htext : ",'.\"".toList = [] ++ Token.app.chars ++ ([] ++ Token.lam.chars ++
      ([] ++ (Token.dots 0).chars ++ ([] ++ Token.unit.chars ++ []))) := by decide
  refine ⟨[.app, .lam, .dots 0, .unit], ?_, .app (.lam (.var Nat.zero_lt_one)) .unit⟩
  rw [htext]
  refine .cons .nil trivial (.cons .nil trivial (.cons .nil ?_ (.cons .nil trivial
    (.nil (.trivia .nil)))))
  simp [Source.EndsBefore, Token.chars]

theorem exists_load_identity_unit (host : Host σ) (before : Session σ) :
    ∃ (session : Session σ) (node ref : Ref) (body argument : Layout Atom),
      (∀ fuel, before.load host fuel ",'.\"" false = .ok (none, session)) ∧
      session.At [] (.app node (.lam ref body) argument) ∧ body.term = .var 0 ∧
      argument.term = .leaf .unit := by
  obtain ⟨session, node, function, argument, hload, hat, hfunction, hargument⟩ :=
    exists_load_app isProgram_identity_unit host before
  obtain ⟨ref, body, rfl, hbody⟩ := Layout.exists_of_term_lam hfunction
  exact ⟨session, node, ref, body, argument, hload, hat, hbody, hargument⟩

/-- If a run to the end reduces nothing but abstractions, then whatever number is read from the
loaded term is read from the value that the run leaves, and the one is never read to the end
exactly if the other is not. -/
theorem run_keeps_number {before : Session σ} {fuel' : Nat} {log' : Bool}
    (hload : before.load host fuel text log = .ok (none, session))
    (hrun : session.run host fuel' none log' = .ok (none, last))
    (hcontracts : ∀ reached, Drives host (none, session) reached → reached.2.Contracts) :
    ∃ loaded left : Layout Atom, Source.IsProgram text.toList loaded.term ∧
      (session.machine.cursor.root = some loaded.root ∧
        session.machine.arena.IsTree loaded) ∧
      (last.machine.cursor.root = some left.root ∧ last.machine.arena.IsTree left ∧
        left.term.isApp = false) ∧
      ∀ (arena arena' : Program) (layout layout' : Layout Atom), arena.IsTree layout →
        layout.term = loaded.term → arena'.IsTree layout' → layout'.term = left.term →
        (∀ number, (∃ fuel next, arena.toNumber fuel layout.root = .ok (number, next)) ↔
          ∃ fuel next, arena'.toNumber fuel layout'.root = .ok (number, next)) ∧
        ((∀ fuel, arena.toNumber fuel layout.root = .error .outOfFuel) ↔
          ∀ fuel, arena'.toNumber fuel layout'.root = .error .outOfFuel) := by
  obtain ⟨term, hprogram, hshows, _⟩ := load_accepted hload
  obtain ⟨loaded, hroot, htree, rfl⟩ := hshows.exists_isTree
  obtain ⟨ended, hdrive, hlast⟩ := run_eq_ok hrun
  obtain ⟨⟨budget, stopped⟩, hdrives, hstops⟩ := exists_stops hdrive
  cases hstops with
  | finished hover =>
      obtain rfl : budget = none := hdrives.budget_eq_none rfl
      obtain ⟨_, steps, hruns, whole, hdone, rfl⟩ := hdrives.exists_runs_never hover hcontracts
        hshows (Term.Stage.failure?_enter [] _)
      have hmachine : last.machine = stopped.machine := by
        cases log' with
        | false => exact congrArg Session.machine (by simpa using hlast)
        | true => exact logListing_machine (by simpa using hlast)
      rw [← hmachine] at hdone
      have heval := (Term.runs_iff_evaluates Term.Rule.never_valued).mp hruns
      have hclosed : loaded.term.Closed := by
        obtain ⟨_, _, hderives⟩ := hprogram
        exact hderives.closedUnder
      refine ⟨loaded, whole, hprogram, ⟨hroot, htree⟩,
        ⟨hdone.keeps.root_eq, hdone.keeps.isTree, hdone.value⟩,
        fun arena arena' layout layout' hlayout hterm hlayout' hterm' => ?_⟩
      have hcounts : ∀ number, layout.term.Counts number ↔ layout'.term.Counts number := by
        rw [hterm, hterm']
        exact Term.counts_iff_of_evaluates heval
      have hclosed' : layout'.term.Closed := hterm' ▸ hdone.keeps.sound.1
      rw [← hterm] at hclosed
      constructor
      · intro number
        rw [hlayout.toNumber_iff_counts hclosed, hlayout'.toNumber_iff_counts hclosed', hcounts]
      · simp only [hlayout.toNumber_cut_iff hclosed, hlayout'.toNumber_cut_iff hclosed', hcounts]

/-- The identity is applied to the numeral of zero, and this number is read from the application
as well as from its value. -/
theorem run_keeps_number_zero : ∃ (session last : Session (List Call)) (fuel : Nat),
    (⟨.empty, []⟩ : Session (List Call)).load (Answers.host ⟨fun _ => none, fun _ => 0⟩) 0
      ",'.''." false = .ok (none, session) ∧
    session.run (Answers.host ⟨fun _ => none, fun _ => 0⟩) fuel none false = .ok (none, last) ∧
    ∃ loaded left : Layout Atom, Source.IsProgram ",'.''.".toList loaded.term ∧
      (session.machine.cursor.root = some loaded.root ∧
        session.machine.arena.IsTree loaded) ∧
      (last.machine.cursor.root = some left.root ∧ last.machine.arena.IsTree left ∧
        left.term.isApp = false) ∧
      (∀ number, (∃ fuel next,
          session.machine.arena.toNumber fuel loaded.root = .ok (number, next)) ↔
        ∃ fuel next, last.machine.arena.toNumber fuel left.root = .ok (number, next)) ∧
      ∃ fuel next, session.machine.arena.toNumber fuel loaded.root = .ok (some 0, next) := by
  obtain ⟨nodes, nodes', freed, hload, hfocus, hlam, hstep, hrun, hread⟩ :
      ∃ nodes nodes' freed : Program,
      (⟨.empty, []⟩ : Session (List Call)).load (Answers.host ⟨fun _ => none, fun _ => 0⟩) 0
        ",'.''." false = .ok (none, ⟨⟨nodes, ⟨some 5, some 5, []⟩, {}, {}⟩, []⟩) ∧
      nodes.focus 5 = .ok (.ready 1 4) ∧ nodes.read 1 = .ok (.lam 0) ∧
      step (Answers.host ⟨fun _ => none, fun _ => 0⟩) 9
        ⟨⟨nodes, ⟨some 5, some 5, []⟩, {}, {}⟩, []⟩ =
          .ok (none, ⟨⟨nodes', ⟨some 4, none, []⟩, {}, {}⟩, []⟩) ∧
      run (Answers.host ⟨fun _ => none, fun _ => 0⟩) 9 none false
        ⟨⟨nodes, ⟨some 5, some 5, []⟩, {}, {}⟩, []⟩ =
          .ok (none, ⟨⟨nodes', ⟨some 4, none, []⟩, {}, {}⟩, []⟩) ∧
      nodes'.toNumber 9 4 = .ok (some 0, freed) :=
    ⟨⟨#[some (.var 0), some (.lam 0), some (.var 0), some (.lam 2), some (.lam 3),
      some (.app 1 4)], []⟩,
      ⟨#[none, none, some (.var 0), some (.lam 2), some (.lam 3), none], [5, 1, 0]⟩,
      ⟨#[none, none, none, none, none, none], [2, 3, 4, 5, 1, 0]⟩,
      by cbv, by cbv, by cbv, by cbv, by cbv, by cbv⟩
  have hturns : Turns (Answers.host ⟨fun _ => none, fun _ => 0⟩)
      (none, ⟨⟨nodes, ⟨some 5, some 5, []⟩, {}, {}⟩, []⟩)
      (none, ⟨⟨nodes', ⟨some 4, none, []⟩, {}, {}⟩, []⟩) :=
    ⟨rfl, rfl, 9, _, hstep, rfl⟩
  have hcontracts : ∀ reached, Drives (Answers.host ⟨fun _ => none, fun _ => 0⟩)
      (none, ⟨⟨nodes, ⟨some 5, some 5, []⟩, {}, {}⟩, []⟩) reached → reached.2.Contracts := by
    intro reached hdrives
    rcases hdrives.cases_head with rfl | ⟨_, hfirst, hrest⟩
    · rintro _ _ _ ⟨⟩ hready
      cases hfocus.symm.trans hready
      exact ⟨0, hlam⟩
    obtain rfl := hfirst.det hturns
    rcases hrest.cases_head with rfl | ⟨_, hsecond, _⟩
    · exact contracts_of_over rfl
    · cases hsecond.going
  obtain ⟨loaded, left, hprogram, hloaded, hleft, hnumbers⟩ :=
    run_keeps_number hload hrun hcontracts
  have hsame := (hnumbers _ _ _ _ hloaded.2 rfl hleft.2.1 rfl).1
  have hroot : 4 = left.root := Option.some.inj hleft.1
  exact ⟨_, _, 9, hload, hrun, loaded, left, hprogram, hloaded, hleft, hsame,
    (hsame (some 0)).mpr ⟨9, freed, hroot ▸ hread⟩⟩

end Session

end LambdaMachine
