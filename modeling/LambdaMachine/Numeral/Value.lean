import LambdaMachine.Numeral.Counting
import LambdaMachine.Term.Evaluation

/-!
# The number of a term

`Term.Counts` says which number a term stands for, if any: the count that evaluation
reaches from the counting step and zero. A term whose evaluation is infinite stands
neither for a number nor for none.
-/

namespace LambdaMachine

namespace Tally

/-- The counting step goes from one count to the next; every other application is
stuck. -/
inductive Rule : Term.Rule Tally Unit Unit where
  | next {n tally} (hnext : next? n = some tally) :
      Rule () (.leaf .increment) (.leaf (.count n)) (.ok (.leaf tally)) ()
  | stuck {head operand}
      (hstuck : ∀ n tally, head = .leaf .increment → operand = .leaf (.count n) →
        next? n ≠ some tally) :
      Rule () head operand (.error ()) ()

theorem rule_deterministic : Rule.Deterministic := by
  intro state head operand outcome state' outcome' state'' hleft hright
  cases hleft with
  | next hnext =>
      cases hright with
      | next hnext' => simpa [hnext] using hnext'
      | stuck hstuck => exact absurd hnext (hstuck _ _ rfl rfl)
  | stuck hstuck =>
      cases hright with
      | next hnext => exact absurd hnext (hstuck _ _ rfl rfl)
      | stuck _ => exact ⟨rfl, rfl⟩

/-- The number of an outcome of counting. -/
def number? : Except Unit (Term Tally) → Option Nat
  | .ok (.leaf (.count n)) => some n
  | _ => none

end Tally

namespace Term

variable {α : Type}

/-- The term applied to the counting step and to zero, its leaves made inert. -/
def counting (term : Term α) : Term Tally :=
  .app (.app (term.map fun _ => .inert) (.leaf .increment)) (.leaf (.count 0))

/-- Counting with a term ends, and with this number or with none. -/
def Counts (term : Term α) (number : Option Nat) : Prop :=
  ∃ outcome steps, Evaluates Tally.Rule () term.counting outcome () steps ∧
    Tally.number? outcome = number

/-- A term stands for one number at most. -/
theorem Counts.det {term : Term α} {number number' : Option Nat}
    (hleft : term.Counts number) (hright : term.Counts number') : number = number' := by
  obtain ⟨outcome, _, heval, rfl⟩ := hleft
  obtain ⟨outcome', _, heval', rfl⟩ := hright
  rw [(heval.det Tally.rule_deterministic heval').1]

end Term

end LambdaMachine
