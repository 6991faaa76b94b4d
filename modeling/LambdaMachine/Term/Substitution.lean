import LambdaMachine.Term.Basic

/-!
# Substitution in terms

`subst` is substitution as it must be in general: the argument is shifted when it
goes under binders, and the variables beyond the one replaced count one binder less.
`replace` puts the argument in place as it stands and changes nothing else.

For closed arguments and a body whose only free variable is replaced the two agree,
which is `replace_eq_subst`.
-/

namespace LambdaMachine.Term

variable {α : Type}

/-- Add `amount` to the variables that are free under `depth` binders. -/
def shift (amount depth : Nat) : Term α → Term α
  | lam body => lam (body.shift amount (depth + 1))
  | app function argument => app (function.shift amount depth) (argument.shift amount depth)
  | var index => if index < depth then var index else var (index + amount)
  | leaf value => leaf value

/-- Substitute an argument for the variable `depth`, whose binder goes away. -/
def subst : Term α → Nat → Term α → Term α
  | lam body, depth, argument => lam (body.subst (depth + 1) argument)
  | app function operand, depth, argument =>
      app (function.subst depth argument) (operand.subst depth argument)
  | var index, depth, argument =>
      if index < depth then var index
      else if index = depth then argument.shift depth 0
      else var (index - 1)
  | leaf value, _, _ => leaf value

/-- Put an argument in place of every occurrence of the variable `depth`. -/
def replace : Term α → Nat → Term α → Term α
  | lam body, depth, argument => lam (body.replace (depth + 1) argument)
  | app function operand, depth, argument =>
      app (function.replace depth argument) (operand.replace depth argument)
  | var index, depth, argument => if index = depth then argument else var index
  | leaf value, _, _ => leaf value

/-- The number of occurrences of the variable `depth`. -/
def occurrences (depth : Nat) : Term α → Nat
  | lam body => body.occurrences (depth + 1)
  | app function argument => function.occurrences depth + argument.occurrences depth
  | var index => if index = depth then 1 else 0
  | leaf _ => 0

/-- What an abstraction over a body gives when it is applied to an argument. -/
def contract (body argument : Term α) : Term α :=
  body.subst 0 argument

/-- A term without free variables at a depth is not changed by shifting there. -/
theorem shift_of_closedUnder {depth : Nat} {term : Term α} (hclosed : term.ClosedUnder depth)
    (amount : Nat) : term.shift amount depth = term := by
  induction term generalizing depth with
  | lam body ih => simp only [shift, ih hclosed]
  | app function argument ihf iha => simp only [shift, ihf hclosed.1, iha hclosed.2]
  | var index => simp [shift, show index < depth from hclosed]
  | leaf value => rfl

/-- A closed argument can be put in place as it stands. -/
theorem replace_eq_subst {argument : Term α} (hargument : argument.Closed) {depth : Nat}
    {body : Term α} (hbody : body.ClosedUnder (depth + 1)) :
    body.replace depth argument = body.subst depth argument := by
  induction body generalizing depth with
  | lam body ih => simp only [replace, subst, ih hbody]
  | app function operand ihf iho =>
      simp only [replace, subst, ihf hbody.1, iho hbody.2]
  | var index =>
      have hlt : index < depth + 1 := hbody
      simp only [replace, subst, shift_of_closedUnder hargument]
      by_cases heq : index = depth
      · simp [heq]
      · have : index < depth := by omega
        simp [heq, this]
  | leaf value => rfl

/-- Substituting a closed argument binds one variable. -/
theorem ClosedUnder.subst {argument : Term α} (hargument : argument.Closed) {depth : Nat}
    {body : Term α} (hbody : body.ClosedUnder (depth + 1)) :
    (body.subst depth argument).ClosedUnder depth := by
  induction body generalizing depth with
  | lam body ih => exact ih hbody
  | app function operand ihf iho => exact ⟨ihf hbody.1, iho hbody.2⟩
  | var index =>
      have hlt : index < depth + 1 := hbody
      simp only [Term.subst, shift_of_closedUnder hargument]
      split
      next hindex => exact hindex
      next hindex =>
        have heq : index = depth := by omega
        simpa [heq] using hargument.mono (Nat.zero_le depth)
  | leaf value => trivial

/-- A contraction of closed terms is closed. -/
theorem Closed.contract {body argument : Term α} (hbody : (lam body).Closed)
    (hargument : argument.Closed) : (body.contract argument).Closed :=
  ClosedUnder.subst hargument hbody

/-- Every occurrence is exchanged for the argument. -/
theorem size_replace (body : Term α) (depth : Nat) (argument : Term α) :
    (body.replace depth argument).size + body.occurrences depth
      = body.size + body.occurrences depth * argument.size := by
  induction body generalizing depth with
  | lam body ih =>
      have hbody := ih (depth + 1)
      simp only [replace, size, occurrences]
      omega
  | app function operand ihf iho =>
      have hfunction := ihf depth
      have hoperand := iho depth
      simp only [replace, size, occurrences, Nat.add_mul]
      omega
  | var index =>
      by_cases heq : index = depth
      · simp [replace, occurrences, size, heq, Nat.add_comm]
      · simp [replace, occurrences, size, heq]
  | leaf value => simp [replace, occurrences, size]

end LambdaMachine.Term
