/-!
# Terms

The terms that an arena holds, as trees: abstractions, applications, variables that
count binders from the inside, and leaves.
-/

namespace LambdaMachine

/-- A term over leaves of type `α`. -/
inductive Term (α : Type) where
  | lam (body : Term α)
  | app (function argument : Term α)
  | var (index : Nat)
  | leaf (value : α)
  deriving DecidableEq, Repr, Inhabited

namespace Term

variable {α β : Type}

/-- Whether the term is an application. -/
def isApp : Term α → Bool
  | app _ _ => true
  | _ => false

/-- Whether the term is an abstraction. -/
def isLam : Term α → Bool
  | lam _ => true
  | _ => false

/-- The number of nodes. -/
def size : Term α → Nat
  | lam body => body.size + 1
  | app function argument => function.size + argument.size + 1
  | var _ => 1
  | leaf _ => 1

/-- The term with other leaves. -/
def map (relabel : α → β) : Term α → Term β
  | lam body => lam (body.map relabel)
  | app function argument => app (function.map relabel) (argument.map relabel)
  | var index => var index
  | leaf value => leaf (relabel value)

/-- Every variable is bound within the term or by one of `depth` binders around it. -/
def ClosedUnder (depth : Nat) : Term α → Prop
  | lam body => body.ClosedUnder (depth + 1)
  | app function argument => function.ClosedUnder depth ∧ argument.ClosedUnder depth
  | var index => index < depth
  | leaf _ => True

/-- Every variable is bound within the term. -/
def Closed (term : Term α) : Prop := term.ClosedUnder 0

/-- The numeral of `n`: two abstractions over `n` applications of the outer variable
that end in the inner one. -/
def numeral (n : Nat) : Term α :=
  lam (lam (Nat.repeat (app (var 1)) n (var 0)))

@[simp]
theorem size_map (relabel : α → β) (term : Term α) : (term.map relabel).size = term.size := by
  induction term with
  | lam body ih => simp [map, size, ih]
  | app function argument ihf iha => simp [map, size, ihf, iha]
  | var index => rfl
  | leaf value => rfl

theorem closedUnder_map (relabel : α → β) (depth : Nat) (term : Term α) :
    (term.map relabel).ClosedUnder depth ↔ term.ClosedUnder depth := by
  induction term generalizing depth with
  | lam body ih => exact ih (depth + 1)
  | app function argument ihf iha => exact and_congr (ihf depth) (iha depth)
  | var index => exact Iff.rfl
  | leaf value => exact Iff.rfl

/-- Binders around a term only help. -/
theorem ClosedUnder.mono {depth depth' : Nat} (hle : depth ≤ depth') {term : Term α}
    (hclosed : term.ClosedUnder depth) : term.ClosedUnder depth' := by
  induction term generalizing depth depth' with
  | lam body ih => exact ih (by omega) hclosed
  | app function argument ihf iha => exact ⟨ihf hle hclosed.1, iha hle hclosed.2⟩
  | var index => exact Nat.lt_of_lt_of_le hclosed hle
  | leaf value => trivial

theorem size_numeral (n : Nat) : (numeral n : Term α).size = 2 * n + 3 := by
  have hbody : ∀ k, (Nat.repeat (app (var 1)) k (var 0) : Term α).size = 2 * k + 1 := by
    intro k
    induction k with
    | zero => rfl
    | succ k ih => simp only [Nat.repeat, size, ih]; omega
  simp only [numeral, size, hbody]

theorem closed_numeral (n : Nat) : (numeral n : Term α).Closed := by
  have hbody : ∀ k, (Nat.repeat (app (var 1)) k (var 0) : Term α).ClosedUnder 2 := by
    intro k
    induction k with
    | zero => exact Nat.zero_lt_two
    | succ k ih => exact ⟨Nat.one_lt_two, ih⟩
  exact hbody n

end Term

end LambdaMachine
