import LambdaMachine.Arena.Traversal

/-!
# Work that finishes

Work that carries fuel finishes in a value if it gives that value under any fuel from
some bound on. Work made of finishing parts finishes, so that what an operation leads
to can be said without naming the fuel.
-/

namespace LambdaMachine

variable {τ σ ρ : Type}

/-- With enough fuel the work gives this value. -/
def Finishes (work : Nat → Except Fault σ) (value : σ) : Prop :=
  ∃ bound, ∀ fuel, bound ≤ fuel → work fuel = .ok value

namespace Finishes

theorem of_eq {work : Nat → Except Fault σ} {value : σ} (h : ∀ fuel, work fuel = .ok value) :
    Finishes work value :=
  ⟨0, fun fuel _ => h fuel⟩

theorem pure (value : σ) : Finishes (fun _ => Pure.pure value) value :=
  of_eq fun _ => rfl

theorem bind {work : Nat → Except Fault σ} {next : Nat → σ → Except Fault τ} {value : σ}
    {value' : τ} (hwork : Finishes work value)
    (hnext : Finishes (fun fuel => next fuel value) value') :
    Finishes (fun fuel => work fuel >>= next fuel) value' := by
  obtain ⟨bound, hwork⟩ := hwork
  obtain ⟨bound', hnext⟩ := hnext
  refine ⟨max bound bound', fun fuel hfuel => ?_⟩
  simp only [hwork fuel (by omega)]
  exact hnext fuel (by omega)

/-- Work that does not need its fuel to begin with may come first. -/
theorem bind_ok {first : Except Fault σ} {next : Nat → σ → Except Fault τ} {value : σ}
    {value' : τ} (hfirst : first = .ok value)
    (hnext : Finishes (fun fuel => next fuel value) value') :
    Finishes (fun fuel => first >>= next fuel) value' :=
  bind (of_eq fun _ => hfirst) hnext

/-- Work that passes on one unit less than it has finishes if it does with any rest. -/
theorem of_succ {work : Nat → Except Fault σ} {value : σ}
    (h : Finishes (fun fuel => work (fuel + 1)) value) : Finishes work value := by
  obtain ⟨bound, h⟩ := h
  refine ⟨bound + 1, fun fuel hfuel => ?_⟩
  obtain ⟨fuel, rfl⟩ : ∃ n, fuel = n + 1 := ⟨fuel - 1, by omega⟩
  exact h fuel (by omega)

theorem det {work : Nat → Except Fault σ} {value value' : σ} (hleft : Finishes work value)
    (hright : Finishes work value') : value = value' := by
  obtain ⟨bound, hleft⟩ := hleft
  obtain ⟨bound', hright⟩ := hright
  have heq := (hleft (max bound bound') (by omega)).symm.trans (hright _ (by omega))
  exact Except.ok.inj heq

/-- Work that more fuel does not change finishes as soon as it gives a value. -/
theorem of_ok {work : Nat → Except Fault σ} {value : σ}
    (hmono : ∀ {fuel fuel'}, fuel ≤ fuel' → Refines (work fuel) (work fuel')) {fuel : Nat}
    (hok : work fuel = .ok value) : Finishes work value :=
  ⟨fuel, fun _ hfuel => (hmono hfuel).eq_ok hok⟩

theorem exists_ok {work : Nat → Except Fault σ} {value : σ} (h : Finishes work value) :
    ∃ fuel, work fuel = .ok value := by
  obtain ⟨bound, h⟩ := h
  exact ⟨bound, h bound (Nat.le_refl bound)⟩

/-- Work that comes first finishes if all of it does. -/
theorem of_bind {work : Nat → Except Fault σ} {next : Nat → σ → Except Fault τ} {value : τ}
    (hmono : ∀ {fuel fuel'}, fuel ≤ fuel' → Refines (work fuel) (work fuel'))
    (h : Finishes (fun fuel => work fuel >>= next fuel) value) :
    ∃ middle, Finishes work middle ∧ Finishes (fun fuel => next fuel middle) value := by
  obtain ⟨bound, h⟩ := h
  obtain ⟨middle, hwork, _⟩ :
      ∃ middle, work bound = .ok middle ∧ next bound middle = .ok value := by
    have hbound := h bound (Nat.le_refl bound)
    cases hwork : work bound with
    | error fault =>
        simp only [hwork] at hbound
        cases hbound
    | ok middle =>
        simp only [hwork] at hbound
        exact ⟨middle, rfl, hbound⟩
  refine ⟨middle, of_ok hmono hwork, bound, fun fuel hfuel => ?_⟩
  have hlater := h fuel hfuel
  simp only [(hmono hfuel).eq_ok hwork] at hlater
  exact hlater

theorem pure_iff {value value' : σ} :
    Finishes (fun _ => Pure.pure value) value' ↔ value' = value :=
  ⟨fun h => h.det (pure value), fun heq => heq ▸ pure value⟩

/-- Work finishes exactly if its parts do. -/
theorem bind_iff {work : Nat → Except Fault σ} {next : Nat → σ → Except Fault τ} {value : τ}
    (hmono : ∀ {fuel fuel'}, fuel ≤ fuel' → Refines (work fuel) (work fuel')) :
    Finishes (fun fuel => work fuel >>= next fuel) value ↔
      ∃ middle, Finishes work middle ∧ Finishes (fun fuel => next fuel middle) value := by
  constructor
  · intro h
    exact of_bind hmono h
  · rintro ⟨middle, hwork, hnext⟩
    exact hwork.bind hnext

/-- Work that passes on one unit less than it has finishes exactly if it does with any rest. -/
theorem succ_iff {work : Nat → Except Fault σ} {value : σ} :
    Finishes (fun fuel => work (fuel + 1)) value ↔ Finishes work value := by
  refine ⟨of_succ, ?_⟩
  rintro ⟨bound, h⟩
  exact ⟨bound, fun fuel hfuel => h (fuel + 1) (by omega)⟩

/-- Under less fuel, work that finishes gives its value or is cut off. -/
theorem eq_or_cut {work : Nat → Except Fault σ} {value : σ}
    (hmono : ∀ {fuel fuel'}, fuel ≤ fuel' → Refines (work fuel) (work fuel'))
    (h : Finishes work value) (fuel : Nat) :
    work fuel = .error .outOfFuel ∨ work fuel = .ok value := by
  obtain ⟨bound, h⟩ := h
  rcases hmono (Nat.le_max_left fuel bound) with hcut | heq
  · exact .inl hcut
  · exact .inr (heq.trans (h _ (Nat.le_max_right fuel bound)))

end Finishes

/-! ### Work that is not broken off -/

theorem bind_eq_ok_iff {first : Except Fault σ} {next : σ → Except Fault τ} {value : τ} :
    first >>= next = .ok value ↔ ∃ middle, first = .ok middle ∧ next middle = .ok value := by
  cases first <;> simp [bind, Except.bind]

/-- The work ends in no fault, except that it may be cut off. -/
def Unbroken (result : Except Fault σ) : Prop :=
  ∀ fault, result = .error fault → fault = .outOfFuel

namespace Unbroken

theorem ok (value : σ) : Unbroken (.ok value) := by
  intro fault hfault
  cases hfault

theorem cut : Unbroken (.error .outOfFuel : Except Fault σ) := by
  intro fault hfault
  cases hfault
  rfl

theorem bind {first : Except Fault σ} {next : σ → Except Fault τ} (hfirst : Unbroken first)
    (hnext : ∀ middle, first = .ok middle → Unbroken (next middle)) :
    Unbroken (first >>= next) := by
  cases first with
  | error fault =>
      obtain rfl := hfirst fault rfl
      exact cut
  | ok middle => exact hnext middle rfl

end Unbroken

/-- Work that finishes is only ever cut off. -/
theorem Finishes.unbroken {work : Nat → Except Fault σ} {value : σ}
    (hmono : ∀ {fuel fuel'}, fuel ≤ fuel' → Refines (work fuel) (work fuel'))
    (h : Finishes work value) (fuel : Nat) : Unbroken (work fuel) := by
  rcases h.eq_or_cut hmono fuel with hcut | hok
  · exact hcut ▸ .cut
  · exact hok ▸ .ok value

/-! ### Walks -/

/-- With enough fuel for itself and for its visits, the walk ends in this state. -/
def Walks (visit : Nat → τ → σ → Except Fault (List τ × σ)) (tasks : List τ)
    (state final : σ) : Prop :=
  ∃ bound, ∀ inner fuel, bound ≤ inner → bound ≤ fuel →
    traverse (visit inner) fuel tasks state = .ok final

namespace Walks

variable {visit : Nat → τ → σ → Except Fault (List τ × σ)} {state middle final : σ}

theorem nil (visit : Nat → τ → σ → Except Fault (List τ × σ)) (state : σ) :
    Walks visit [] state state :=
  ⟨0, fun _ _ _ _ => by simp⟩

theorem append {first second : List τ} (hfirst : Walks visit first state middle)
    (hsecond : Walks visit second middle final) :
    Walks visit (first ++ second) state final := by
  obtain ⟨bound, hfirst⟩ := hfirst
  obtain ⟨bound', hsecond⟩ := hsecond
  refine ⟨bound + bound', fun inner fuel hinner hfuel => ?_⟩
  have hwalk := traverse_append (hfirst inner bound (by omega) (Nat.le_refl _))
    (hsecond inner bound' (by omega) (Nat.le_refl _))
  exact (traverse_mono (fun _ _ => .refl _) hfuel _ _).eq_ok hwalk

/-- A walk from one task is its visit and then the walk over the subtasks. -/
theorem of_visit {task : τ} {subtasks : List τ}
    (hvisit : Finishes (fun fuel => visit fuel task state) (subtasks, middle))
    (hwalk : Walks visit subtasks middle final) : Walks visit [task] state final := by
  obtain ⟨bound, hvisit⟩ := hvisit
  obtain ⟨bound', hwalk⟩ := hwalk
  refine ⟨max bound bound' + 1, fun inner fuel hinner hfuel => ?_⟩
  obtain ⟨fuel, rfl⟩ : ∃ n, fuel = n + 1 := ⟨fuel - 1, by omega⟩
  have hstep : visit inner task state = .ok (subtasks, middle) := hvisit inner (by omega)
  rw [traverse, hstep]
  simpa using hwalk inner fuel (by omega) (by omega)

theorem leaf {task : τ} (hvisit : Finishes (fun fuel => visit fuel task state) ([], final)) :
    Walks visit [task] state final :=
  of_visit hvisit (nil visit final)

theorem pair {task task' : τ} (hfirst : Walks visit [task] state middle)
    (hsecond : Walks visit [task'] middle final) : Walks visit [task, task'] state final :=
  append hfirst hsecond

theorem finishes {tasks : List τ} (hwalk : Walks visit tasks state final) :
    Finishes (fun fuel => traverse (visit fuel) fuel tasks state) final := by
  obtain ⟨bound, hwalk⟩ := hwalk
  exact ⟨bound, fun fuel hfuel => hwalk fuel fuel hfuel hfuel⟩

end Walks

/-! ### Walks visit by visit -/

/-- The walk handles these tasks, in this order, and ends in this state. -/
inductive Visits (visit : τ → σ → Except Fault (List τ × σ)) :
    List τ → σ → List τ → σ → Prop where
  | nil (state : σ) : Visits visit [] state [] state
  | cons {task : τ} {subtasks pending handled : List τ} {state middle final : σ}
      (hvisit : visit task state = .ok (subtasks, middle))
      (hrest : Visits visit (subtasks ++ pending) middle handled final) :
      Visits visit (task :: pending) state (task :: handled) final

namespace Visits

variable {visit : τ → σ → Except Fault (List τ × σ)} {tasks handled handled' : List τ}
  {state middle final : σ}

theorem append {first second : List τ} (hfirst : Visits visit first state handled middle)
    (hsecond : Visits visit second middle handled' final) :
    Visits visit (first ++ second) state (handled ++ handled') final := by
  induction hfirst with
  | nil state => exact hsecond
  | cons hvisit hrest ih =>
      refine .cons hvisit ?_
      simpa using ih hsecond

/-- The walk from one task handles it, and then what the walk over its subtasks handles. -/
theorem of_visit {task : τ} {subtasks : List τ} (hvisit : visit task state = .ok (subtasks, middle))
    (hrest : Visits visit subtasks middle handled final) :
    Visits visit [task] state (task :: handled) final :=
  .cons hvisit (by simpa using hrest)

theorem leaf {task : τ} (hvisit : visit task state = .ok ([], final)) :
    Visits visit [task] state [task] final :=
  of_visit hvisit (nil final)

/-- A walk takes one unit of fuel for each task that it handles. -/
theorem traverse_eq (h : Visits visit tasks state handled final) (fuel : Nat) :
    traverse visit fuel tasks state =
      if handled.length ≤ fuel then .ok final else .error .outOfFuel := by
  induction h generalizing fuel with
  | nil state => simp
  | cons hvisit hrest ih =>
      cases fuel with
      | zero => simp [traverse]
      | succ fuel => simp [traverse, hvisit, ih]

theorem finishes (h : Visits visit tasks state handled final) :
    Finishes (fun fuel => traverse visit fuel tasks state) final :=
  ⟨handled.length, fun fuel hfuel => (h.traverse_eq fuel).trans (if_pos hfuel)⟩

end Visits

end LambdaMachine
