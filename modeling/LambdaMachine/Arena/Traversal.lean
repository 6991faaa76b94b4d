import LambdaMachine.Arena.Basic

/-!
# Traversals

Walks over trees are loops over a list of pending tasks, so the depth of a term
never bounds them. A visit handles one task and puts its subtasks in front of the
others. The arena may hold a cycle, so a walk carries fuel: the number of visits
that it may still make.

The main statement is `traverse_mono`: fuel beyond what a walk needs does not
change its result. It is put as a refinement, an order on results under which work
that was cut off may come to any result, and all other work keeps its own.
-/

namespace LambdaMachine

variable {τ σ : Type}

/-- The first result is the second one, or its work was cut off. -/
def Refines (result better : Except Fault σ) : Prop :=
  result = .error .outOfFuel ∨ result = better

namespace Refines

theorem refl (result : Except Fault σ) : Refines result result :=
  .inr rfl

/-- What is finished stays as it is. -/
theorem eq_ok {result better : Except Fault σ} (h : Refines result better) {value : σ}
    (hresult : result = .ok value) : better = .ok value := by
  rcases h with hcut | heq
  · rw [hcut] at hresult
    cases hresult
  · exact heq ▸ hresult

/-- Refinement goes through from one operation to the next. -/
theorem bind {result better : Except Fault σ} {next better' : σ → Except Fault τ}
    (hresult : Refines result better) (hnext : ∀ value, Refines (next value) (better' value)) :
    Refines (result >>= next) (better >>= better') := by
  rcases hresult with rfl | rfl
  · exact .inl rfl
  · cases result with
    | error fault => exact .refl _
    | ok value => exact hnext value

end Refines

/-- Visit the pending tasks from the front, each followed by its own subtasks. -/
@[specialize]
def traverse (visit : τ → σ → Except Fault (List τ × σ)) :
    Nat → List τ → σ → Except Fault σ
  | _, [], state => .ok state
  | 0, _ :: _, _ => .error .outOfFuel
  | fuel + 1, task :: pending, state =>
      match visit task state with
      | .ok (subtasks, state) => traverse visit fuel (subtasks ++ pending) state
      | .error fault => .error fault

@[simp]
theorem traverse_nil (visit : τ → σ → Except Fault (List τ × σ)) (fuel : Nat)
    (state : σ) : traverse visit fuel [] state = .ok state := by
  cases fuel <;> rfl

/-- More fuel, and a better visit, can only finish a walk. -/
theorem traverse_mono {visit visit' : τ → σ → Except Fault (List τ × σ)}
    (hvisit : ∀ task state, Refines (visit task state) (visit' task state))
    {fuel fuel' : Nat} (hfuel : fuel ≤ fuel') (tasks : List τ) (state : σ) :
    Refines (traverse visit fuel tasks state) (traverse visit' fuel' tasks state) := by
  induction fuel generalizing fuel' tasks state with
  | zero =>
      cases tasks with
      | nil => simpa using Refines.refl _
      | cons task pending => exact .inl rfl
  | succ fuel ih =>
      cases tasks with
      | nil => simpa using Refines.refl _
      | cons task pending =>
          obtain ⟨fuel', rfl⟩ : ∃ n, fuel' = n + 1 := ⟨fuel' - 1, by omega⟩
          rw [traverse, traverse]
          rcases hvisit task state with hcut | heq
          · exact .inl (by rw [hcut])
          · rw [← heq]
            cases visit task state with
            | error fault => exact .refl _
            | ok result => exact ih (by omega) _ _

/-- A walk over two lists of tasks is the walk over the first and then the walk over
the second. -/
theorem traverse_append {visit : τ → σ → Except Fault (List τ × σ)} {fuel fuel' : Nat}
    {first second : List τ} {state middle final : σ}
    (hfirst : traverse visit fuel first state = .ok middle)
    (hsecond : traverse visit fuel' second middle = .ok final) :
    traverse visit (fuel + fuel') (first ++ second) state = .ok final := by
  induction fuel generalizing first state with
  | zero =>
      cases first with
      | nil =>
          obtain rfl : state = middle := by simpa using hfirst
          simpa using hsecond
      | cons task pending => simp [traverse] at hfirst
  | succ fuel ih =>
      cases first with
      | nil =>
          obtain rfl : state = middle := by simpa using hfirst
          exact (traverse_mono (fun _ _ => .refl _) (by omega) _ _).eq_ok hsecond
      | cons task pending =>
          rw [List.cons_append, Nat.succ_add, traverse]
          rw [traverse] at hfirst
          cases hvisit : visit task state with
          | error fault => simp [hvisit] at hfirst
          | ok result =>
              obtain ⟨subtasks, next⟩ := result
              simp only [hvisit, ← List.append_assoc] at hfirst ⊢
              exact ih hfirst

end LambdaMachine
