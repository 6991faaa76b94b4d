import LambdaMachine.Atom
import LambdaMachine.Numeral.Value
import LambdaMachine.Proofs.Building
import LambdaMachine.Proofs.Contraction
import LambdaMachine.Proofs.Divergence
import LambdaMachine.Proofs.Layers

/-!
# Counting is evaluation

A count in progress shows a position of an evaluation, and each turn makes one step of
it. So counting finishes with a number, finishes without one, or is never finished, as
the evaluation of the term with the counting step and zero does.
-/

namespace LambdaMachine

open Layout (Layer within)

/-! ### The counting rule -/

namespace Tally

theorem number?_eq_some {outcome : Except Unit (Term Tally)} {n : Nat} :
    number? outcome = some n ↔ outcome = .ok (.leaf (.count n)) := by
  unfold number?
  split <;> simp_all

theorem number?_eq_none {outcome : Except Unit (Term Tally)} :
    number? outcome = none ↔ ∀ n, outcome ≠ .ok (.leaf (.count n)) := by
  rw [Option.eq_none_iff_forall_ne_some]
  exact forall_congr' fun n => not_congr number?_eq_some

theorem rule_valued : Term.Rule.Valued Rule := by
  intro state head operand value state' hrule
  cases hrule
  rfl

theorem rule_total : Term.Rule.Total Rule := by
  intro state head operand _
  by_cases hnext : ∃ n tally, head = .leaf .increment ∧ operand = .leaf (.count n) ∧
      next? n = some tally
  · obtain ⟨n, tally, rfl, rfl, hnext⟩ := hnext
    exact ⟨_, _, .next hnext⟩
  · refine ⟨_, (), .stuck fun n tally hhead hoperand hnext' => ?_⟩
    exact hnext ⟨n, tally, hhead, hoperand, hnext'⟩

/-- An application is never the end. -/
theorem exists_advances (layers : List (Term.Layer Tally)) {term : Term Tally}
    (happ : term.isApp = true) : ∃ stage, Term.Advances Rule layers term () stage () := by
  obtain ⟨function, argument, rfl⟩ : ∃ function argument, term = .app function argument := by
    cases term with
    | app function argument => exact ⟨function, argument, rfl⟩
    | _ => cases happ
  cases hfunction : function.isApp with
  | true => exact ⟨_, .function hfunction⟩
  | false =>
      cases hargument : argument.isApp with
      | true => exact ⟨_, .argument hfunction hargument⟩
      | false =>
          cases hlam : function.isLam with
          | true =>
              cases function with
              | lam body => exact ⟨_, .contract hargument⟩
              | _ => cases hlam
          | false =>
              obtain ⟨outcome, _, hrule⟩ := rule_total () function argument hlam
              exact ⟨_, .rule hfunction hlam hargument hrule⟩

end Tally

/-! ### Turns -/

namespace Counting

/-- The arena holds this redex inside these layers. -/
structure Stands (state : Counting) (layers : List (Layer Tally)) (redex : Layout Tally) :
    Prop where
  wellFormed : state.arena.WellFormed
  isTree : state.arena.IsTree (.within layers redex)
  redex_eq : state.redex = redex.root
  path_eq : state.path = layers.map Layer.link
  isApp : redex.term.isApp = true

/-- A result was put in its place inside these layers. -/
def Lands : Turn → List (Layer Tally) → Layout Tally → Prop
  | .further state, layer :: layers, result => state.Stands layers (layer.around result)
  | .stuck, [], result => ∀ n, result.term ≠ .leaf (.count n)
  | .counted n, [], result => result.term = .leaf (.count n)
  | _, _, _ => False

/-- The arena holds this redex inside these layers, and nothing in it is free. -/
structure Shows (state : Counting) (layers : List (Layer Tally)) (redex : Layout Tally) :
    Prop where
  wellFormed : state.arena.WellFormed
  isTree : state.arena.IsTree (.within layers redex)
  redex_eq : state.redex = redex.root
  path_eq : state.path = layers.map Layer.link
  isApp : redex.term.isApp = true
  closed : redex.term.Closed
  closed_layers : ∀ layer ∈ layers, layer.term.given.Closed

/-- What a turn leads to is this stage of the evaluation. -/
def Reaches : Turn → Term.Stage Tally Unit → Prop
  | .further state, .going layers term =>
      ∃ layers' redex, state.Shows layers' redex ∧ layers'.map Layer.term = layers ∧
        redex.term = term
  | .stuck, .ended outcome => Tally.number? outcome = none
  | .counted n, .ended outcome => Tally.number? outcome = some n
  | _, _ => False

variable {state : Counting} {layers : List (Layer Tally)} {redex result : Layout Tally}
  {arena₁ : Arena Tally} {rest : List Ref}

theorem Shows.stands (hshows : state.Shows layers redex) : state.Stands layers redex :=
  ⟨hshows.wellFormed, hshows.isTree, hshows.redex_eq, hshows.path_eq, hshows.isApp⟩

theorem Stands.shows (hstands : state.Stands layers redex) (hclosed : redex.term.Closed)
    (hlayers : ∀ layer ∈ layers, layer.term.given.Closed) : state.Shows layers redex :=
  ⟨hstands.wellFormed, hstands.isTree, hstands.redex_eq, hstands.path_eq, hstands.isApp, hclosed,
    hlayers⟩

/-- What a redex was reduced to is linked in its place. -/
theorem Stands.exists_plug (hstands : state.Stands layers redex)
    (hexchange : Arena.Exchange state.arena redex.refs (result.refs ++ rest) arena₁)
    (hresult : arena₁.IsTree result) (happ : result.term.isApp = true) :
    ∃ arena₂, arena₁.plug (layers.map Layer.link) result.root = .ok arena₂ ∧
      Stands ⟨arena₂, result.root, layers.map Layer.link⟩ layers result := by
  obtain ⟨arena₂, hplug, htree, hexchange⟩ := hstands.isTree.exists_plug hexchange hresult
  exact ⟨arena₂, hplug, hexchange.wellFormed hstands.wellFormed, htree, rfl, rfl, happ⟩

/-- Putting a value in its place goes on one level up, or ends the count. -/
theorem Stands.exists_settle (hstands : state.Stands layers redex)
    (hexchange : Arena.Exchange state.arena redex.refs (result.refs ++ rest) arena₁)
    (hresult : arena₁.IsTree result) :
    ∃ turn, settle arena₁ (layers.map Layer.link) result.root = .ok turn ∧
      Lands turn layers result := by
  obtain ⟨arena₂, hplug, htree, hfoot⟩ := hstands.isTree.exists_plug hexchange hresult
  cases layers with
  | nil =>
      have hread := hresult.holds.read_root
      cases result with
      | leaf ref tally =>
          cases tally with
          | count n => exact ⟨.counted n, by simp [settle, hread, Layout.node, bind, Except.bind,
              pure, Except.pure], rfl⟩
          | _ => exact ⟨.stuck, by simp [settle, hread, Layout.node, bind, Except.bind, pure,
              Except.pure], by simp [Lands, Layout.term]⟩
      | _ => exact ⟨.stuck, by simp [settle, hread, Layout.node, bind, Except.bind, pure,
          Except.pure], by simp [Lands, Layout.term]⟩
  | cons layer layers =>
      refine ⟨.further ⟨arena₂, layer.link.parent, layers.map Layer.link⟩, ?_,
        hfoot.wellFormed hstands.wellFormed, htree, ?_, rfl, ?_⟩
      · change arena₁.setChild layer.link.parent layer.link.side result.root = .ok arena₂ at hplug
        simp [settle, hplug, bind, Except.bind, pure, Except.pure]
      · rw [layer.root_around, layer.parent_link]
      · cases layer <;> rfl

/-- A closed result in closed layers is where the evaluation goes on. -/
theorem Lands.reaches {turn : Turn} (hlands : Lands turn layers result)
    (hclosed : result.term.Closed) (hlayers : ∀ layer ∈ layers, layer.term.given.Closed) :
    Reaches turn (.resume (layers.map Layer.term) result.term) := by
  match turn, layers, hlands with
  | .further state, layer :: layers, hstands =>
      refine ⟨layers, layer.around result, hstands.shows ?_ fun other hmem =>
        hlayers other (List.mem_cons_of_mem _ hmem), rfl, layer.term_around result⟩
      have hgiven := hlayers layer List.mem_cons_self
      cases layer with
      | function parent right => exact ⟨hclosed, hgiven⟩
      | argument parent left => exact ⟨hgiven, hclosed⟩
  | .stuck, [], hnone =>
      exact Tally.number?_eq_none.mpr fun n heq => hnone n (Except.ok.inj heq)
  | .counted n, [], hcount =>
      exact Tally.number?_eq_some.mpr (congrArg Except.ok hcount)

/-- An abstraction is contracted. What it becomes is reduced next, in the same place, or is
put there. -/
theorem Stands.finishes_contract {node ref : Ref} {body operand : Layout Tally}
    (hstands : state.Stands layers (.app node (.lam ref body) operand)) :
    ∃ (result : Layout Tally) (turn : Turn), result.term = body.term.replace 0 operand.term ∧
      Finishes (fun fuel => contract fuel state.arena (layers.map Layer.link) ref operand.root)
        turn ∧
      if result.term.isApp then ∃ next, turn = .further next ∧ next.Stands layers result
      else Lands turn layers result := by
  have htree := hstands.isTree.of_within layers
  obtain ⟨_, ⟨hnotf, hnota⟩, hdisjoint, hfunction, hargument⟩ := Arena.isTree_app.mp htree
  obtain ⟨supply, result, arena₁, hfilled, hgraft, hexchange⟩ :=
    hfunction.finishes_graft hstands.wellFormed hargument (List.disjoint_symm hdisjoint)
  have hread : state.arena.read ref = .ok (.lam body.root) := hfunction.holds.read_root
  have hresult := hfilled.isTree
  have hresult_app := hresult.holds.isApp_root
  -- Nothing is released, so besides what grafting leaves over there is the application.
  have hfoot : Arena.Exchange state.arena (Layout.app node (.lam ref body) operand).refs
      (result.refs ++ (node :: ref ::
        (body.occurrences 0 ++ Arena.spare operand supply.length))) arena₁ :=
    (hexchange.cons node).of_mem_iff (fun _ => Iff.rfl) (by grind)
  cases happ : result.term.isApp with
  | true =>
      obtain ⟨arena₂, hplug, hstands'⟩ := hstands.exists_plug hfoot hresult happ
      refine ⟨result, .further ⟨arena₂, result.root, layers.map Layer.link⟩, hfilled.term, ?_, ?_⟩
      · refine .bind_ok hread (hgraft.bind (.bind_ok hresult_app ?_))
        simp only [happ, if_true]
        exact .bind_ok hplug (.pure _)
      · rw [if_pos happ]
        exact ⟨_, rfl, hstands'⟩
  | false =>
      obtain ⟨turn, hsettle, hlands⟩ := hstands.exists_settle hfoot hresult
      refine ⟨result, turn, hfilled.term,
        .bind_ok hread (hgraft.bind (.bind_ok hresult_app ?_)), ?_⟩
      · simp only [happ]
        exact .of_eq fun _ => hsettle
      · rwa [happ, if_neg Bool.false_ne_true]

theorem Shows.finishes_contract {node ref : Ref} {body operand : Layout Tally}
    (hshows : state.Shows layers (.app node (.lam ref body) operand)) :
    ∃ turn, Finishes (fun fuel => contract fuel state.arena (layers.map Layer.link) ref
        operand.root) turn ∧
      Reaches turn (.enter (layers.map Layer.term) (body.term.contract operand.term)) := by
  obtain ⟨hbody, hoperand⟩ : (Layout.lam ref body).term.Closed ∧ operand.term.Closed :=
    hshows.closed
  obtain ⟨result, turn, hterm, hcontract, hleads⟩ := hshows.stands.finishes_contract
  have hreplaced : result.term = body.term.contract operand.term :=
    hterm.trans (Term.replace_eq_subst hoperand hbody)
  have hclosed : result.term.Closed := hreplaced ▸ hbody.contract hoperand
  refine ⟨turn, hcontract, ?_⟩
  rw [← hreplaced]
  cases happ : result.term.isApp with
  | true =>
      rw [if_pos happ] at hleads
      obtain ⟨next, rfl, hstands⟩ := hleads
      rw [Term.Stage.enter_of_isApp happ]
      exact ⟨layers, result, hstands.shows hclosed hshows.closed_layers, rfl, rfl⟩
  | false =>
      rw [happ, if_neg Bool.false_ne_true] at hleads
      rw [Term.Stage.enter_of_value happ]
      exact hleads.reaches hclosed hshows.closed_layers

/-- The counting step is applied to a count. -/
theorem Stands.finishes_increase {node step ref : Ref} {n : Nat} {tally : Tally}
    (hstands : state.Stands layers (.app node (.leaf step .increment) (.leaf ref (.count n))))
    (hnext : Tally.next? n = some tally) :
    ∃ slot turn,
      Finishes (fun fuel => contract fuel state.arena (layers.map Layer.link) step ref) turn ∧
      Lands turn layers (.leaf slot tally) := by
  obtain ⟨_, hfunction, hargument⟩ := (hstands.isTree.of_within layers).holds
  obtain ⟨slot, arena₁, halloc, hresult, hexchange⟩ :=
    hstands.wellFormed.exists_alloc_leaf tally
  have hfoot : Arena.Exchange state.arena
      (Layout.app node (.leaf step Tally.increment) (.leaf ref (Tally.count n))).refs
      ([slot] ++ [node, step, ref]) arena₁ := hexchange.frame [node, step, ref]
  obtain ⟨turn, hsettle, hlands⟩ := hstands.exists_settle hfoot hresult
  refine ⟨slot, turn, .of_eq fun fuel => ?_, hlands⟩
  have hread : state.arena.read step = .ok (.leaf .increment) := hfunction.read_root
  have hread' : state.arena.read ref = .ok (.leaf (.count n)) := hargument.read_root
  simp only [contract, increase, hread, hread', hnext, halloc, bind, Except.bind]
  exact hsettle

/-- Every other application is stuck. -/
theorem contract_stuck {node : Ref} {head operand : Layout Tally} (fuel : Nat) {path : Path}
    (hholds : state.arena.Holds (.app node head operand)) (hlam : head.term.isLam = false)
    (hstuck : ∀ n tally, head.term = .leaf .increment → operand.term = .leaf (.count n) →
      Tally.next? n ≠ some tally) :
    contract fuel state.arena path head.root operand.root = .ok .stuck := by
  obtain ⟨_, hfunction, hargument⟩ := hholds
  simp only [contract, hfunction.read_root, bind, Except.bind]
  cases head with
  | lam ref body => cases hlam
  | leaf ref tally =>
      cases tally with
      | increment =>
          simp only [Layout.node, increase, hargument.read_root, bind, Except.bind]
          cases operand with
          | leaf ref' tally =>
              cases tally with
              | count n =>
                  have hnone : Tally.next? n = none := by
                    cases hnext : Tally.next? n with
                    | none => rfl
                    | some tally => exact absurd hnext (hstuck n tally rfl rfl)
                  simp only [hnone]
                  rfl
              | _ => rfl
          | _ => rfl
      | _ => rfl
  | _ => rfl

/-- Going down into a part of the redex adds a layer. -/
theorem Stands.function {node : Ref} {function argument : Layout Tally}
    (hstands : state.Stands layers (.app node function argument))
    (happ : function.term.isApp = true) :
    Stands ⟨state.arena, function.root, ⟨state.redex, .function⟩ :: state.path⟩
      (.function node argument :: layers) function := by
  refine ⟨hstands.wellFormed, hstands.isTree, rfl, ?_, happ⟩
  rw [hstands.redex_eq, hstands.path_eq]
  rfl

theorem Stands.argument {node : Ref} {function argument : Layout Tally}
    (hstands : state.Stands layers (.app node function argument))
    (happ : argument.term.isApp = true) :
    Stands ⟨state.arena, argument.root, ⟨state.redex, .argument⟩ :: state.path⟩
      (.argument node function :: layers) argument := by
  refine ⟨hstands.wellFormed, hstands.isTree, rfl, ?_, happ⟩
  rw [hstands.redex_eq, hstands.path_eq]
  rfl

/-- A turn makes one step of the evaluation. -/
theorem Shows.finishes_turn {stage : Term.Stage Tally Unit} (hshows : state.Shows layers redex)
    (hadvance : Term.Advances Tally.Rule (layers.map Layer.term) redex.term () stage ()) :
    ∃ next, Finishes (fun fuel => turn fuel state) next ∧ Reaches next stage := by
  obtain ⟨node, function, argument, rfl⟩ := Layout.exists_of_isApp hadvance.isApp_eq_true
  have hstands := hshows.stands
  have hholds := (hshows.isTree.of_within layers).holds
  obtain ⟨hclosedf, hcloseda⟩ := hshows.closed
  have hfocus : ∀ {focus : Focus}, state.arena.focus node = .ok focus →
      state.arena.focus state.redex = .ok focus := by
    rw [hshows.redex_eq]
    exact id
  rw [Layout.term] at hadvance
  generalize hhead : function.term = head at hadvance
  generalize hoperand : argument.term = operand at hadvance
  cases hadvance with
  | function happ =>
      rw [← hhead] at happ
      refine ⟨_, .bind_ok (hfocus (hholds.focus_function happ)) (.pure _), _, function,
        (hstands.function happ).shows hclosedf ?_, by rw [← hoperand]; rfl, hhead⟩
      exact List.forall_mem_cons.mpr ⟨hcloseda, hshows.closed_layers⟩
  | argument hvalue happ =>
      rw [← hhead] at hvalue
      rw [← hoperand] at happ
      refine ⟨_, .bind_ok (hfocus (hholds.focus_argument hvalue happ)) (.pure _), _, argument,
        (hstands.argument happ).shows hcloseda ?_, by rw [← hhead]; rfl, hoperand⟩
      exact List.forall_mem_cons.mpr ⟨hclosedf, hshows.closed_layers⟩
  | contract hvalue =>
      obtain ⟨ref, body, rfl, rfl⟩ := Layout.exists_of_term_lam hhead
      subst hoperand
      obtain ⟨next, hcontract, hreaches⟩ := hshows.finishes_contract
      refine ⟨next, .bind_ok (hfocus (hholds.focus_ready rfl hvalue)) ?_, hreaches⟩
      rw [hshows.path_eq]
      exact hcontract
  | rule hvalue hlam hvalue' hrule =>
      have hready := hfocus (hholds.focus_ready (hhead ▸ hvalue) (hoperand ▸ hvalue'))
      cases hrule with
      | next hnext =>
          obtain ⟨step, rfl⟩ := Layout.exists_of_term_leaf hhead
          obtain ⟨ref, rfl⟩ := Layout.exists_of_term_leaf hoperand
          obtain ⟨slot, next, hincrease, hlands⟩ := hstands.finishes_increase hnext
          refine ⟨next, .bind_ok hready ?_, hlands.reaches trivial hshows.closed_layers⟩
          rw [hshows.path_eq]
          exact hincrease
      | stuck hstuck =>
          subst hhead hoperand
          exact ⟨.stuck,
            .bind_ok hready (.of_eq fun fuel => contract_stuck fuel hholds hlam hstuck), rfl⟩

/-- If the count goes on, it goes on at a redex inside some layers. -/
def Turn.Lasts : Turn → Prop
  | .further state => ∃ layers redex, state.Stands layers redex
  | _ => True

theorem Lands.lasts {turn : Turn} (hlands : Lands turn layers result) : turn.Lasts := by
  match turn, layers, hlands with
  | .further state, layer :: layers, hstands => exact ⟨layers, _, hstands⟩
  | .stuck, _, _ => trivial
  | .counted n, _, _ => trivial

/-- Every turn comes to an end, also where variables are free. -/
theorem Stands.finishes_turn (hstands : state.Stands layers redex) :
    ∃ next : Turn, Finishes (fun fuel => turn fuel state) next ∧ next.Lasts := by
  obtain ⟨node, function, argument, rfl⟩ := Layout.exists_of_isApp hstands.isApp
  have hholds := (hstands.isTree.of_within layers).holds
  have hfocus : ∀ {focus : Focus}, state.arena.focus node = .ok focus →
      state.arena.focus state.redex = .ok focus := by
    rw [hstands.redex_eq]
    exact id
  cases happ : function.term.isApp with
  | true =>
      exact ⟨_, .bind_ok (hfocus (hholds.focus_function happ)) (.pure _), _, _,
        hstands.function happ⟩
  | false =>
      cases happ' : argument.term.isApp with
      | true =>
          exact ⟨_, .bind_ok (hfocus (hholds.focus_argument happ happ')) (.pure _), _, _,
            hstands.argument happ'⟩
      | false =>
          have hready := hfocus (hholds.focus_ready happ happ')
          cases hlam : function.term.isLam with
          | true =>
              obtain ⟨body, hterm⟩ : ∃ body, function.term = .lam body := by
                cases hterm : function.term <;> simp_all [Term.isLam]
              obtain ⟨ref, body, rfl, _⟩ := Layout.exists_of_term_lam hterm
              obtain ⟨result, next, _, hcontract, hleads⟩ := hstands.finishes_contract
              refine ⟨next, .bind_ok hready (by rw [hstands.path_eq]; exact hcontract), ?_⟩
              split at hleads
              · obtain ⟨state', rfl, hstands'⟩ := hleads
                exact ⟨layers, result, hstands'⟩
              · exact hleads.lasts
          | false =>
              by_cases hnext : ∃ n tally, function.term = .leaf .increment ∧
                  argument.term = .leaf (.count n) ∧ Tally.next? n = some tally
              · obtain ⟨n, tally, hhead, hoperand, hnext⟩ := hnext
                obtain ⟨step, rfl⟩ := Layout.exists_of_term_leaf hhead
                obtain ⟨ref, rfl⟩ := Layout.exists_of_term_leaf hoperand
                obtain ⟨slot, next, hincrease, hlands⟩ := hstands.finishes_increase hnext
                exact ⟨next, .bind_ok hready (by rw [hstands.path_eq]; exact hincrease),
                  hlands.lasts⟩
              · refine ⟨.stuck, .bind_ok hready (.of_eq fun fuel => ?_), trivial⟩
                exact contract_stuck fuel hholds hlam fun n tally hhead hoperand heq =>
                  hnext ⟨n, tally, hhead, hoperand, heq⟩

/-! ### Whole counts -/

/-- What a run makes of a turn. -/
def proceed (fuel : Nat) : Turn → Except Fault (Option Nat)
  | .further state => run fuel state
  | .stuck => .ok none
  | .counted n => .ok (some n)

theorem run_succ (fuel : Nat) (state : Counting) :
    run (fuel + 1) state = turn fuel state >>= proceed fuel := by
  rw [run]
  cases turn fuel state with
  | error fault => rfl
  | ok next => cases next <;> rfl

theorem turn_refines {state : Counting} {fuel fuel' : Nat} (hfuel : fuel ≤ fuel') :
    Refines (turn fuel state) (turn fuel' state) :=
  turn_mono hfuel state

/-- A count finishes if the evaluation that it shows comes to an outcome. -/
theorem Shows.finishes_run {outcome : Except Unit (Term Tally)} {steps : Nat}
    (hshows : state.Shows layers redex)
    (hruns : Term.Runs Tally.Rule (.going (layers.map Layer.term) redex.term) () outcome () steps) :
    Finishes (fun fuel => run fuel state) (Tally.number? outcome) := by
  induction steps generalizing state layers redex with
  | zero => cases hruns
  | succ steps ih =>
      obtain ⟨stage, _, hadvance, hruns⟩ := hruns.exists_advances
      obtain ⟨next, hturn, hreaches⟩ := hshows.finishes_turn hadvance
      refine .of_succ ?_
      simp only [run_succ]
      refine hturn.bind ?_
      match next, stage, hruns, hreaches with
      | .further state', .going layers' term, hruns, hreaches =>
          obtain ⟨layers', redex', hshows', rfl, rfl⟩ := hreaches
          exact ih hshows' hruns
      | .stuck, .ended outcome', hruns, hreaches =>
          cases hruns
          exact .of_eq fun _ => congrArg _ (show _ = _ from hreaches).symm
      | .counted n, .ended outcome', hruns, hreaches =>
          cases hruns
          exact .of_eq fun _ => congrArg _ (show _ = _ from hreaches).symm

/-- Under any fuel a count is cut off, or it has the outcome of the evaluation. -/
theorem Shows.run_eq_or_cut (hshows : state.Shows layers redex) (fuel : Nat) :
    run fuel state = .error .outOfFuel ∨ ∃ outcome steps,
      Term.Runs Tally.Rule (.going (layers.map Layer.term) redex.term) () outcome () steps ∧
      run fuel state = .ok (Tally.number? outcome) := by
  induction fuel generalizing state layers redex with
  | zero => exact .inl rfl
  | succ fuel ih =>
      -- The counting rule applies to any two values, so the evaluation can always advance.
      obtain ⟨stage, hadvance⟩ := Tally.exists_advances (layers.map Layer.term) hshows.isApp
      obtain ⟨next, hturn, hreaches⟩ := hshows.finishes_turn hadvance
      rcases hturn.eq_or_cut turn_refines fuel with hcut | heq
      · exact .inl (by rw [run_succ, hcut]; rfl)
      · rw [run_succ, heq]
        match next, stage, hadvance, hreaches with
        | .further state', .going layers' term, hadvance, hreaches =>
            obtain ⟨layers', redex', hshows', rfl, rfl⟩ := hreaches
            rcases ih hshows' with hcut | ⟨outcome, steps, hruns, heq⟩
            · exact .inl hcut
            · exact .inr ⟨outcome, steps + 1, .advance hadvance hruns, heq⟩
        | .stuck, .ended outcome, hadvance, hreaches =>
            refine .inr ⟨outcome, 1, .advance hadvance .ended, ?_⟩
            exact congrArg _ (show _ = _ from hreaches).symm
        | .counted n, .ended outcome, hadvance, hreaches =>
            refine .inr ⟨outcome, 1, .advance hadvance .ended, ?_⟩
            exact congrArg _ (show _ = _ from hreaches).symm

/-- A count is only ever cut off, also where variables are free. -/
theorem Stands.run_unbroken (hstands : state.Stands layers redex) (fuel : Nat) :
    Unbroken (run fuel state) := by
  induction fuel generalizing state layers redex with
  | zero => exact .cut
  | succ fuel ih =>
      obtain ⟨next, hturn, hlasts⟩ := hstands.finishes_turn
      rw [run_succ]
      rcases hturn.eq_or_cut turn_refines fuel with hcut | heq
      · rw [hcut]
        exact .cut
      · rw [heq]
        cases next with
        | further state' =>
            obtain ⟨layers', redex', hstands'⟩ := hlasts
            exact ih hstands'
        | stuck => exact .ok none
        | counted n => exact .ok (some n)

/-- A count begins with the term applied to the counting step and to zero. -/
theorem exists_start {arena : Arena Tally} {term : Layout Tally} (hwf : arena.WellFormed)
    (htree : arena.IsTree term) :
    ∃ redex, (start arena term.root).Stands [] redex ∧
      redex.term = .app (.app term.term (.leaf .increment)) (.leaf (.count 0)) := by
  obtain ⟨step, arena₁, halloc₁, hstep, hgrow₁⟩ := hwf.exists_alloc_leaf Tally.increment
  have hwf₁ := hgrow₁.wellFormed hwf
  obtain ⟨base, arena₂, halloc₂, hbase, hgrow₂⟩ := hwf₁.exists_alloc_leaf (Tally.count 0)
  have hwf₂ := hgrow₂.wellFormed hwf₁
  have hnil : ∀ refs : List Ref, refs.Disjoint [] := List.disjoint_nil_right
  have hterm₂ := hgrow₂.isTree (hgrow₁.isTree htree (hnil _)) (hnil _)
  have hstep₂ := hgrow₂.isTree hstep (hnil _)
  have hapart := hgrow₁.disjoint htree.holds (hnil _)
  have hapart₂ := hgrow₂.disjoint (hgrow₁.isTree htree (hnil _)).holds (hnil _)
  have hapart₃ := hgrow₂.disjoint hstep.holds (hnil _)
  obtain ⟨function, arena₃, halloc₃, hfunction, hgrow₃⟩ :=
    hwf₂.exists_alloc_app hterm₂ hstep₂ hapart
  have hwf₃ := hgrow₃.wellFormed hwf₂
  have hbase₃ := hgrow₃.isTree hbase (hnil _)
  have hdisjoint : (Layout.app function term (.leaf step Tally.increment)).refs.Disjoint
      (Layout.leaf base (Tally.count 0)).refs := by
    have hnot : base ∉ [function] := hgrow₃.not_mem_new
      (hbase.holds.isSome_of_mem List.mem_cons_self) List.not_mem_nil
    refine List.disjoint_cons_left.mpr ⟨fun hmem => hnot (List.mem_singleton.mpr ?_),
      List.disjoint_append_left.mpr ⟨hapart₂, hapart₃⟩⟩
    exact (List.mem_singleton.mp hmem).symm
  obtain ⟨redex, arena₄, halloc₄, hredex, hgrow₄⟩ :=
    hwf₃.exists_alloc_app hfunction hbase₃ hdisjoint
  have hstart : start arena term.root = ⟨arena₄, redex, []⟩ := by
    replace halloc₃ : arena₂.alloc (.app term.root step) = (function, arena₃) := halloc₃
    replace halloc₄ : arena₃.alloc (.app function base) = (redex, arena₄) := halloc₄
    simp only [start, halloc₁, halloc₂, halloc₃, halloc₄]
  rw [hstart]
  exact ⟨_, ⟨hgrow₄.wellFormed hwf₃, hredex, rfl, rfl, rfl⟩, rfl⟩

end Counting

/-! ### Reading a term as a number -/

theorem Term.closed_counting {α : Type} {term : Term α} (hclosed : term.Closed) :
    term.counting.Closed :=
  ⟨⟨(Term.closedUnder_map _ _ _).mpr hclosed, trivial⟩, trivial⟩

namespace Arena

variable {α : Type} {arena : Arena α} {layout : Layout α}

/-- Reading a tree releases it and counts with a copy of its term. -/
theorem IsTree.exists_counting (htree : arena.IsTree layout) :
    ∃ planted tallies arena' redex,
      Finishes (fun fuel => transplant fuel arena layout.root (fun _ => Tally.inert) .empty)
        (planted, tallies) ∧
      Finishes (fun fuel => arena.releaseTree fuel layout.root) arena' ∧
      Exchange arena layout.refs [] arena' ∧ (Counting.start tallies planted).Stands [] redex ∧
      redex.term = layout.term.counting := by
  obtain ⟨planted, tallies, hterm, htransplant, hplanted, hgrow⟩ :=
    wellFormed_empty.finishes_transplant (fun _ => Tally.inert) htree.holds
  obtain ⟨arena', hrelease, hgone⟩ := htree.finishes_releaseTree
  obtain ⟨redex, hstands, hredex⟩ :=
    Counting.exists_start (hgrow.wellFormed wellFormed_empty) hplanted
  refine ⟨_, tallies, arena', redex, htransplant, hrelease, hgone, hstands, ?_⟩
  rw [hredex, hterm]
  rfl

theorem toNumber_eq_or_cut {planted : Ref} {tallies : Arena Tally} {root : Ref}
    {arena' : Arena α}
    (htransplant : Finishes (fun fuel => transplant fuel arena root (fun _ => Tally.inert) .empty)
      (planted, tallies))
    (hrelease : Finishes (fun fuel => arena.releaseTree fuel root) arena') (fuel : Nat) :
    arena.toNumber fuel root = .error .outOfFuel ∨
      arena.toNumber fuel root = do
        return (← Counting.run fuel (Counting.start tallies planted), arena') := by
  rcases htransplant.eq_or_cut (fun hfuel => transplant_mono hfuel _ _ _ _) fuel with hcut | heq
  · exact .inl (by rw [toNumber, hcut]; rfl)
  rcases hrelease.eq_or_cut (fun hfuel => releaseTree_mono hfuel _ _) fuel with hcut | heq'
  · exact .inl (by simp only [toNumber, heq, hcut, bind, Except.bind])
  · exact .inr (by simp only [toNumber, heq, heq', bind, Except.bind])

/-- Whatever a tree stands for, it is released if reading it comes to an end, and nothing but the
end can be missing. -/
theorem IsTree.exists_toNumber (htree : arena.IsTree layout) :
    ∃ arena', Exchange arena layout.refs [] arena' ∧ ∀ fuel,
      arena.toNumber fuel layout.root = .error .outOfFuel ∨
        ∃ number, arena.toNumber fuel layout.root = .ok (number, arena') := by
  obtain ⟨planted, tallies, arena', redex, htransplant, hrelease, hgone, hstands, _⟩ :=
    htree.exists_counting
  refine ⟨arena', hgone, fun fuel => ?_⟩
  rcases toNumber_eq_or_cut htransplant hrelease fuel with hcut | heq
  · exact .inl hcut
  rw [heq]
  cases hrun : Counting.run fuel (Counting.start tallies planted) with
  | ok number => exact .inr ⟨number, rfl⟩
  | error fault =>
      rw [hstands.run_unbroken fuel fault hrun]
      exact .inl rfl

/-- A tree that counts to a number is read as it and released. -/
theorem IsTree.finishes_toNumber (htree : arena.IsTree layout) (hclosed : layout.term.Closed)
    {number : Option Nat} (hcounts : layout.term.Counts number) :
    ∃ arena', Finishes (fun fuel => arena.toNumber fuel layout.root) (number, arena') ∧
      Exchange arena layout.refs [] arena' := by
  obtain ⟨outcome, steps, heval, rfl⟩ := hcounts
  obtain ⟨planted, tallies, arena', redex, htransplant, hrelease, hgone, hstands, hredex⟩ :=
    htree.exists_counting
  have hshows := hstands.shows (hredex ▸ Term.closed_counting hclosed) (by simp)
  rw [← hredex, ← Term.runs_iff_evaluates Tally.rule_valued,
    Term.Stage.enter_of_isApp hshows.isApp] at heval
  have hrun := hshows.finishes_run heval
  exact ⟨arena', htransplant.bind (hrelease.bind (hrun.bind (.pure _))), hgone⟩

/-- Under any fuel reading is cut off, or gives the number that the term counts to. -/
theorem IsTree.toNumber_eq_or_cut (htree : arena.IsTree layout) (hclosed : layout.term.Closed)
    (fuel : Nat) :
    arena.toNumber fuel layout.root = .error .outOfFuel ∨ ∃ number arena',
      layout.term.Counts number ∧ arena.toNumber fuel layout.root = .ok (number, arena') ∧
      Exchange arena layout.refs [] arena' := by
  obtain ⟨planted, tallies, arena', redex, htransplant, hrelease, hgone, hstands, hredex⟩ :=
    htree.exists_counting
  have hshows := hstands.shows (hredex ▸ Term.closed_counting hclosed) (by simp)
  rcases Arena.toNumber_eq_or_cut htransplant hrelease fuel with hcut | heq
  · exact .inl hcut
  rw [heq]
  rcases hshows.run_eq_or_cut fuel with hcut | ⟨outcome, steps, hruns, hrun⟩
  · exact .inl (by rw [hcut]; rfl)
  · refine .inr ⟨_, arena', ⟨outcome, steps, ?_, rfl⟩, by rw [hrun]; rfl, hgone⟩
    rw [← hredex, ← Term.runs_iff_evaluates Tally.rule_valued,
      Term.Stage.enter_of_isApp hshows.isApp]
    exact hruns

theorem IsTree.toNumber_iff_counts (htree : arena.IsTree layout) (hclosed : layout.term.Closed)
    (number : Option Nat) :
    (∃ fuel arena', arena.toNumber fuel layout.root = .ok (number, arena')) ↔
      layout.term.Counts number := by
  constructor
  · rintro ⟨fuel, arena', hok⟩
    rcases htree.toNumber_eq_or_cut hclosed fuel with hcut | ⟨number', _, hcounts, heq, _⟩
    · rw [hcut] at hok
      cases hok
    · rw [heq] at hok
      cases hok
      exact hcounts
  · intro hcounts
    obtain ⟨arena', hfinishes, _⟩ := htree.finishes_toNumber hclosed hcounts
    obtain ⟨fuel, hok⟩ := hfinishes.exists_ok
    exact ⟨fuel, arena', hok⟩

/-- A closed tree is never read to the end exactly if it counts to nothing. -/
theorem IsTree.toNumber_cut_iff (htree : arena.IsTree layout) (hclosed : layout.term.Closed) :
    (∀ fuel, arena.toNumber fuel layout.root = .error .outOfFuel) ↔
      ¬ ∃ number, layout.term.Counts number := by
  constructor
  · rintro hcut ⟨number, hcounts⟩
    obtain ⟨fuel, arena', hok⟩ := (htree.toNumber_iff_counts hclosed number).mpr hcounts
    rw [hcut fuel] at hok
    cases hok
  · intro hnone fuel
    rcases htree.toNumber_eq_or_cut hclosed fuel with hcut | ⟨number, _, hcounts, _⟩
    · exact hcut
    · exact absurd ⟨number, hcounts⟩ hnone

/-- A closed tree is read as the number that it counts to, as none if its evaluation ends in
anything else, and is never read to the end exactly if its evaluation is infinite. -/
theorem toNumber_iff_evaluates (arena : Arena α) (layout : Layout α)
    (htree : arena.IsTree layout) (hclosed : layout.term.Closed) :
    (∀ n, (∃ fuel arena', arena.toNumber fuel layout.root = .ok (some n, arena')) ↔
      ∃ steps, Term.Evaluates Tally.Rule () layout.term.counting (.ok (.leaf (.count n))) ()
        steps) ∧
    ((∃ fuel arena', arena.toNumber fuel layout.root = .ok (none, arena')) ↔
      ∃ outcome steps, Term.Evaluates Tally.Rule () layout.term.counting outcome () steps ∧
        ∀ n, outcome ≠ .ok (.leaf (.count n))) ∧
    ((∀ fuel, arena.toNumber fuel layout.root = .error .outOfFuel) ↔
      Term.Diverges Tally.Rule () layout.term.counting) := by
  refine ⟨fun n => ?_, ?_, ?_⟩
  · rw [htree.toNumber_iff_counts hclosed]
    simp [Term.Counts, Tally.number?_eq_some]
  · rw [htree.toNumber_iff_counts hclosed]
    simp only [Term.Counts, Tally.number?_eq_none]
  · rw [Term.diverges_iff Tally.rule_deterministic Tally.rule_total]
    constructor
    · rintro hcut ⟨outcome, _, steps, heval⟩
      obtain ⟨fuel, arena', hok⟩ :=
        (htree.toNumber_iff_counts hclosed _).mpr ⟨outcome, steps, heval, rfl⟩
      rw [hcut fuel] at hok
      cases hok
    · intro hnone fuel
      rcases htree.toNumber_eq_or_cut hclosed fuel with hcut | ⟨_, _, ⟨outcome, steps, heval, _⟩, _⟩
      · exact hcut
      · exact absurd ⟨outcome, (), steps, heval⟩ hnone

/-- The numeral of one is read as one. -/
theorem toNumber_one :
    ∃ fuel arena', (⟨#[some (.lam 1), some (.lam 2), some (.app 3 4), some (.var 1),
      some (.var 0)], []⟩ : Arena Atom).toNumber fuel 0 = .ok (some 1, arena') := by
  have htree : (⟨#[some (.lam 1), some (.lam 2), some (.app 3 4), some (.var 1), some (.var 0)],
      []⟩ : Arena Atom).IsTree (.lam 0 (.lam 1 (.app 2 (.var 3 1) (.var 4 0)))) :=
    ⟨⟨rfl, rfl, rfl, rfl, rfl⟩, by simp [Layout.refs]⟩
  have hfunction : Term.Evaluates Tally.Rule ()
      (.app (.lam (.lam (.app (.var 1) (.var 0)))) (.leaf .increment))
      (.ok (.lam (.app (.leaf .increment) (.var 0)))) () 1 :=
    .contract (.value rfl) (.value rfl) (.value rfl)
  have hnext : Term.Evaluates Tally.Rule () (.app (.leaf .increment) (.leaf (.count 0)))
      (.ok (.leaf (.count 1))) () 1 := .rule (.value rfl) rfl (.value rfl) (.next rfl)
  exact ((toNumber_iff_evaluates _ _ htree ⟨Nat.one_lt_two, Nat.zero_lt_two⟩).1 1).mpr
    ⟨_, .contract hfunction (.value rfl) hnext⟩

end Arena

end LambdaMachine
