import LambdaMachine.Proofs.Reductions

/-!
# A step is an advance

One step of a machine that stands at a redex makes one advance of the evaluation. The only
step that may not finish is reading the operand of an output whose count is infinite, and
there the evaluation cannot advance either (`At.step_cases`).
-/

namespace LambdaMachine

/-- An output is applied to a value whose count is infinite. -/
def Term.Stalled (term : Term Atom) : Prop :=
  ∃ operand, term = .app (.leaf .put) operand ∧ operand.isApp = false ∧
    ¬ ∃ number, operand.Counts number

namespace Session

open Layout (Layer)

variable {σ : Type} {session : Session σ} {layers : List (Layer Atom)} {redex : Layout Atom}

/-- What a step leads to, with the calls that it makes, is a stage to which the evaluation
advances under any answers that explain these calls. -/
structure Makes (host : Host σ) (session : Session σ) (layers : List (Layer Atom))
    (redex : Layout Atom) (outcome : Outcome σ) (calls : List Call)
    (stage : Term.Stage Atom Failure) : Prop where
  performs : host.Performs calls session.world outcome.2.world
  failure_eq : outcome.1 = stage.failure?
  shows : outcome.2.Shows stage
  advances : ∀ (answers : Answers) notes, answers.Explains (notes ++ calls) →
    Term.Advances (Atom.Rule answers.host) (layers.map Layer.term) redex.term
      (session.around notes) stage (outcome.2.around (notes ++ calls))

/-- A step that cannot be finished, and an evaluation that cannot advance. -/
structure Hangs (host : Host σ) (session : Session σ) (layers : List (Layer Atom))
    (redex : Layout Atom) : Prop where
  step_eq : ∀ fuel, session.step host fuel = .error .outOfFuel
  not_advances : ∀ (answers : Answers) around stage around',
    ¬ Term.Advances (Atom.Rule answers.host) (layers.map Layer.term) redex.term around stage
      around'

/-! ### Reducing -/

section Reducing

variable {node ref : Ref} {atom : Atom} {head operand : Layout Atom} {outcome : Outcome σ}

theorem Yields.makes {host : Host σ} {diagnostic : Diagnostic}
    (hyields : (session.trace host diagnostic).Yields host (layers.map Layer.term) head.term
      operand.term outcome)
    (hhead : head.term.isApp = false) (hlam : head.term.isLam = false)
    (hvalue : operand.term.isApp = false) :
    ∃ calls stage, session.Makes host layers (.app node head operand) outcome calls stage := by
  obtain ⟨calls, result, hperforms, hfailure, hshows, hrule⟩ := hyields
  exact ⟨calls, _, .trace hperforms, hfailure, hshows,
    fun answers notes hexplains => .rule hhead hlam hvalue (hrule answers notes hexplains)⟩

/-- A built-in that takes the unit refuses everything else. -/
theorem At.withUnit_of_ne (hat : session.At layers (.app node (.leaf ref atom) operand))
    (host : Host σ) (hatom : atom.takesUnit = true) (hoperand : operand.term ≠ .leaf .unit)
    (reduce : Session σ → Except Fault (Outcome σ)) :
    session.withUnit ⟨node, ref, operand.root⟩ reduce = .ok (some .notNull, session) ∧
      session.Yields host (layers.map Layer.term) (.leaf atom) operand.term
        (some .notNull, session) := by
  obtain ⟨_, _, hargument⟩ := (hat.keeps.isTree.of_within layers).holds
  constructor
  · simp only [withUnit, hargument.read_root, bind, Except.bind]
    cases operand with
    | leaf ref' atom' =>
        cases atom' with
        | unit => exact absurd rfl hoperand
        | _ => rfl
    | _ => rfl
  · refine ⟨[], .error .notNull, .nil, rfl, hat.shows_error _, fun answers notes _ => ?_⟩
    rw [List.append_nil]
    exact .notNull hatom hoperand

/-- A built-in that takes the unit is reduced if it gets it. -/
theorem At.withUnit_unit {ref' : Ref}
    (hat : session.At layers (.app node (.leaf ref atom) (.leaf ref' .unit)))
    (reduce : Session σ → Except Fault (Outcome σ)) :
    session.withUnit ⟨node, ref, ref'⟩ reduce = reduce session := by
  obtain ⟨_, _, hargument⟩ := (hat.keeps.isTree.of_within layers).holds
  have hread : session.machine.arena.read ref' = .ok (.leaf .unit) := hargument.read_root
  simp only [withUnit, hread, bind, Except.bind]

/-- Applying a built-in that takes the unit yields what its own reduction yields, or is
refused. -/
theorem At.yields_withUnit (hat : session.At layers (.app node (.leaf ref atom) operand))
    (host : Host σ) (hatom : atom.takesUnit = true)
    (reduce : Nat → Session σ → Except Fault (Outcome σ))
    (hreduce : ∀ ref', operand = .leaf ref' .unit →
      ∃ outcome, Finishes (fun fuel => reduce fuel session) outcome ∧
        session.Yields host (layers.map Layer.term) (.leaf atom) (.leaf .unit) outcome) :
    ∃ outcome, Finishes (fun fuel => session.withUnit ⟨node, ref, operand.root⟩ (reduce fuel))
        outcome ∧
      session.Yields host (layers.map Layer.term) (.leaf atom) operand.term outcome := by
  by_cases hunit : operand.term = .leaf .unit
  · obtain ⟨ref', rfl⟩ := Layout.exists_of_term_leaf hunit
    obtain ⟨outcome, hfinishes, hyields⟩ := hreduce ref' rfl
    refine ⟨outcome, ?_, hyields⟩
    have heq : ∀ fuel, session.withUnit ⟨node, ref, ref'⟩ (reduce fuel) = reduce fuel session :=
      fun fuel => hat.withUnit_unit (reduce fuel)
    simpa only [Layout.root, heq] using hfinishes
  · exact ⟨_, .of_eq fun fuel => (hat.withUnit_of_ne host hatom hunit (reduce fuel)).1,
      (hat.withUnit_of_ne host hatom hunit (reduce 0)).2⟩

/-- The session that reduces an application with this head. -/
def telling (host : Host σ) (session : Session σ) (head : Layout Atom) : Session σ :=
  session.trace host (.reducing head.node session.machine.cursor.path)

/-- A built-in is reduced by its own reduction, if that finishes. -/
theorem At.finishes_reduce_leaf (hat : session.At layers (.app node (.leaf ref atom) operand))
    (host : Host σ) (hvalue : operand.term.isApp = false)
    (hput : atom = .put → ∃ number, operand.term.Counts number) :
    ∃ outcome, Finishes (fun fuel => session.reduce host fuel ⟨node, ref, operand.root⟩) outcome ∧
      (session.telling host (.leaf ref atom)).Yields host (layers.map Layer.term) (.leaf atom)
        operand.term outcome := by
  obtain ⟨_, hfunction, _⟩ := (hat.keeps.isTree.of_within layers).holds
  have hread : session.machine.arena.read ref = .ok (.leaf atom) := hfunction.read_root
  have htold : (session.telling host (.leaf ref atom)).At layers
    (.app node (.leaf ref atom) operand) := hat
  cases atom with
  | unit =>
      refine ⟨(some .notAFunction, session.telling host (.leaf ref .unit)),
        .bind_ok hread (.pure _), [], .error .notAFunction, .nil, rfl, htold.shows_error _,
        fun answers notes _ => ?_⟩
      rw [List.append_nil]
      exact .notAFunction
  | put =>
      obtain ⟨number, hcounts⟩ := hput rfl
      obtain ⟨outcome, htake, hperforms, haround, hmatch⟩ :=
        htold.finishes_takeNumeral host hcounts
      refine ⟨outcome, .bind_ok hread htake, ?_⟩
      cases number with
      | some n =>
          obtain ⟨hnone, hshows⟩ := hmatch
          refine ⟨[], .ok (.leaf (.pending (some n))), hperforms,
            hnone.trans (Term.Stage.failure?_resume _ _).symm, hshows, fun answers notes _ => ?_⟩
          rw [List.append_nil, haround]
          exact .put hcounts
      | none =>
          obtain ⟨hfailure, hmarks⟩ := hmatch
          refine ⟨[], .error .notANumeral, hperforms, hfailure, hmarks.shows _,
            fun answers notes _ => ?_⟩
          rw [List.append_nil, haround]
          exact .putFails hcounts
  | pending number =>
      obtain ⟨outcome, hwith, hyields⟩ := htold.yields_withUnit host rfl
        (fun _ => putByte host ⟨node, ref, operand.root⟩ number) fun ref' heq => by
          subst heq
          obtain ⟨outcome, hput, hyields⟩ := htold.exists_putByte host
          exact ⟨outcome, .of_eq fun _ => hput, hyields⟩
      exact ⟨outcome, .bind_ok hread hwith, hyields⟩
  | get =>
      obtain ⟨outcome, hwith, hyields⟩ := htold.yields_withUnit host rfl
        (fun fuel => getByte host fuel ⟨node, ref, operand.root⟩) fun ref' heq => by
          subst heq
          exact htold.finishes_getByte host
      exact ⟨outcome, .bind_ok hread hwith, hyields⟩
  | random =>
      obtain ⟨outcome, hwith, hyields⟩ := htold.yields_withUnit host rfl
        (fun _ => drawByte host ⟨node, ref, operand.root⟩) fun ref' heq => by
          subst heq
          obtain ⟨outcome, hdraw, hyields⟩ := htold.exists_drawByte host
          exact ⟨outcome, .of_eq fun _ => hdraw, hyields⟩
      exact ⟨outcome, .bind_ok hread hwith, hyields⟩

/-- An output whose operand counts without end is never reduced. -/
theorem At.reduce_hangs (hat : session.At layers (.app node (.leaf ref .put) operand))
    (host : Host σ) (hnone : ¬ ∃ number, operand.term.Counts number) (fuel : Nat) :
    session.reduce host fuel ⟨node, ref, operand.root⟩ = .error .outOfFuel := by
  have htree := hat.keeps.isTree.of_within layers
  obtain ⟨_, _, _, _, hargument⟩ := Arena.isTree_app.mp htree
  have hread : session.machine.arena.read ref = .ok (.leaf .put) := htree.holds.2.1.read_root
  obtain ⟨⟨_, hoperand⟩, _⟩ := hat.sound.imp_left Term.sound_app.mp
  rcases hargument.toNumber_eq_or_cut hoperand.1 fuel with hcut | ⟨number, _, hcounts, _⟩
  · simp only [reduce, hread, takeNumeral, Session.trace, hcut, bind, Except.bind]
  · exact absurd ⟨number, hcounts⟩ hnone

end Reducing

/-! ### Stepping -/

section Stepping

variable {node : Ref} {function argument : Layout Atom}

/-- A step that finds nothing to reduce first reduces. -/
theorem At.step_ready (hat : session.At layers (.app node function argument)) (host : Host σ)
    (hfunction : function.term.isApp = false) (hargument : argument.term.isApp = false)
    (fuel : Nat) :
    session.step host fuel = session.reduce host fuel ⟨node, function.root, argument.root⟩ := by
  have hredex : session.machine.cursor.redex = some node := hat.redex_eq
  have hfocus := (hat.keeps.isTree.of_within layers).holds.focus_ready hfunction hargument
  simp only [step, hredex, hfocus, bind, Except.bind]

/-- A step goes down to the function part if that is an application. -/
theorem At.step_function (hat : session.At layers (.app node function argument)) (host : Host σ)
    (happ : function.term.isApp = true) :
    ∃ outcome, Finishes (fun fuel => session.step host fuel) outcome ∧
      session.Makes host layers (.app node function argument) outcome []
        (.going (.function argument.term :: layers.map Layer.term) function.term) := by
  have hholds := (hat.keeps.isTree.of_within layers).holds
  obtain ⟨⟨arena, cursor, assembler, splitter⟩, world⟩ := session
  have hredex : cursor.redex = some node := hat.redex_eq
  have hpath : cursor.path = layers.map Layer.link := hat.path_eq
  refine ⟨(none, ⟨⟨arena, { cursor with
    redex := some function.root, path := ⟨node, .function⟩ :: cursor.path }, assembler, splitter⟩,
    world⟩), .of_eq fun _ => ?_, .nil, rfl, ?_, fun answers notes _ => ?_⟩
  · simp only [step, hredex, hholds.focus_function happ, bind, Except.bind, pure, Except.pure]
  · refine ⟨.function node argument :: layers, function, ⟨hat.keeps, rfl, ?_, happ, ?_⟩, rfl, rfl⟩
    · rw [List.map_cons, hpath]
      rfl
    · exact List.forall_mem_cons.mpr ⟨(nomatch ·), hat.waiting⟩
  · rw [List.append_nil]
    exact .function happ

/-- A step goes down to the argument part if that is an application and the function part
is none. -/
theorem At.step_argument (hat : session.At layers (.app node function argument)) (host : Host σ)
    (hvalue : function.term.isApp = false) (happ : argument.term.isApp = true) :
    ∃ outcome, Finishes (fun fuel => session.step host fuel) outcome ∧
      session.Makes host layers (.app node function argument) outcome []
        (.going (.argument function.term :: layers.map Layer.term) argument.term) := by
  have hholds := (hat.keeps.isTree.of_within layers).holds
  obtain ⟨⟨arena, cursor, assembler, splitter⟩, world⟩ := session
  have hredex : cursor.redex = some node := hat.redex_eq
  have hpath : cursor.path = layers.map Layer.link := hat.path_eq
  refine ⟨(none, ⟨⟨arena, { cursor with
    redex := some argument.root, path := ⟨node, .argument⟩ :: cursor.path }, assembler, splitter⟩,
    world⟩), .of_eq fun _ => ?_, .nil, rfl, ?_, fun answers notes _ => ?_⟩
  · simp only [step, hredex, hholds.focus_argument hvalue happ, bind, Except.bind, pure,
      Except.pure]
  · refine ⟨.argument node function :: layers, argument, ⟨hat.keeps, rfl, ?_, happ, ?_⟩, rfl, rfl⟩
    · rw [List.map_cons, hpath]
      rfl
    · exact List.forall_mem_cons.mpr ⟨fun _ => hvalue, hat.waiting⟩
  · rw [List.append_nil]
    exact .argument hvalue happ

/-- A step contracts an abstraction applied to a value. -/
theorem At.step_contract {ref : Ref} {body : Layout Atom}
    (hat : session.At layers (.app node (.lam ref body) argument)) (host : Host σ)
    (hvalue : argument.term.isApp = false) :
    ∃ outcome, Finishes (fun fuel => session.step host fuel) outcome ∧
      session.Makes host layers (.app node (.lam ref body) argument) outcome []
        (.enter (layers.map Layer.term) (body.term.contract argument.term)) := by
  have hread : session.machine.arena.read ref = .ok (.lam body.root) :=
    (hat.keeps.isTree.of_within layers).holds.2.1.read_root
  have htold : (session.telling host (.lam ref body)).At layers
    (.app node (.lam ref body) argument) := hat
  obtain ⟨next, hcontract, hperforms, haround, hshows⟩ := htold.finishes_contract host
  refine ⟨(none, next), ?_, .trace hperforms, (Term.Stage.failure?_enter _ _).symm, hshows,
    fun answers notes _ => ?_⟩
  · simp only [hat.step_ready host rfl hvalue]
    exact .bind_ok hread (hcontract.bind (.pure _))
  · rw [List.append_nil, haround]
    exact .contract hvalue

/-- The evaluation cannot advance from an output whose operand counts without end. -/
theorem not_advances_put {τ : Type} {host : Host τ} {layers : List (Term.Layer Atom)}
    {operand : Term Atom} {around around' : Surroundings τ} {stage : Term.Stage Atom Failure}
    (hvalue : operand.isApp = false) (hnone : ¬ ∃ number, operand.Counts number) :
    ¬ Term.Advances (Atom.Rule host) layers (.app (.leaf .put) operand) around stage around' := by
  intro hadvances
  cases hadvances with
  | function happ => cases happ
  | argument _ happ => rw [hvalue] at happ; cases happ
  | rule _ _ _ hrule =>
      cases hrule with
      | put hcounts => exact hnone ⟨_, hcounts⟩
      | putFails hcounts => exact hnone ⟨_, hcounts⟩
      | notNull hatom => cases hatom

/-- A step makes an advance of the evaluation, unless it reads a count that is infinite. -/
theorem At.makes_or_stalled (hat : session.At layers redex) (host : Host σ) :
    (∃ outcome calls stage, Finishes (fun fuel => session.step host fuel) outcome ∧
      session.Makes host layers redex outcome calls stage) ∨ redex.term.Stalled := by
  obtain ⟨node, function, argument, rfl⟩ := Layout.exists_of_isApp hat.isApp
  obtain ⟨⟨hfunction, _⟩, _⟩ := hat.sound.imp_left Term.sound_app.mp
  cases happ : function.term.isApp with
  | true =>
      obtain ⟨outcome, hstep, hmakes⟩ := hat.step_function host happ
      exact .inl ⟨outcome, _, _, hstep, hmakes⟩
  | false =>
      cases happ' : argument.term.isApp with
      | true =>
          obtain ⟨outcome, hstep, hmakes⟩ := hat.step_argument host happ happ'
          exact .inl ⟨outcome, _, _, hstep, hmakes⟩
      | false =>
          cases function with
          | lam ref body =>
              obtain ⟨outcome, hstep, hmakes⟩ := hat.step_contract host happ'
              exact .inl ⟨outcome, _, _, hstep, hmakes⟩
          | app ref function operand => cases happ
          | var ref index => exact absurd hfunction.1 (Nat.not_lt_zero index)
          | leaf ref atom =>
              -- Counting the operand is the only work of a step that may have no end.
              by_cases hput : atom = .put → ∃ number, argument.term.Counts number
              · obtain ⟨outcome, hreduce, hyields⟩ := hat.finishes_reduce_leaf host happ' hput
                obtain ⟨calls, stage, hmakes⟩ : ∃ calls stage,
                    session.Makes host layers (.app node (.leaf ref atom) argument) outcome calls
                      stage := hyields.makes rfl rfl happ'
                refine .inl ⟨outcome, calls, stage, ?_, hmakes⟩
                simpa only [hat.step_ready host rfl happ', Layout.root] using hreduce
              · obtain ⟨rfl, hnone⟩ := Classical.not_imp.mp hput
                exact .inr ⟨argument.term, rfl, happ', hnone⟩

theorem At.hangs (hat : session.At layers redex) (host : Host σ) (hstalled : redex.term.Stalled) :
    session.Hangs host layers redex := by
  obtain ⟨operand, hterm, hvalue, hnone⟩ := hstalled
  obtain ⟨node, function, argument, rfl⟩ := Layout.exists_of_isApp hat.isApp
  obtain ⟨hput, rfl⟩ := Term.app.inj hterm
  obtain ⟨ref, rfl⟩ := Layout.exists_of_term_leaf hput
  refine ⟨fun fuel => ?_, fun answers around stage around' hadvances => ?_⟩
  · rw [hat.step_ready host rfl hvalue]
    exact hat.reduce_hangs host hnone fuel
  · exact not_advances_put hvalue hnone hadvances

/-- A step makes an advance of the evaluation, or neither is possible. -/
theorem At.step_cases (hat : session.At layers redex) (host : Host σ) :
    (∃ outcome calls stage, Finishes (fun fuel => session.step host fuel) outcome ∧
      session.Makes host layers redex outcome calls stage) ∨ session.Hangs host layers redex :=
  (hat.makes_or_stalled host).imp_right (hat.hangs host)

end Stepping

end Session

end LambdaMachine
