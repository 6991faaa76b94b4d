import LambdaMachine.Utf8.Assembler

/-!
# Failures of a running program

The ways in which a reduction can be refused, or a run be cut short by its host.
-/

namespace LambdaMachine

/-- Why a run ended without a value. -/
inductive Failure where
  /-- The operand of `put` was no numeral. -/
  | notANumeral
  /-- A built-in that takes the unit was given something else. -/
  | notNull
  /-- A number put out could not come next in UTF-8. -/
  | invalidUtf8
  /-- The host asked to stop, or there was no more input. -/
  | aborted
  /-- The unit was applied. -/
  | notAFunction
  deriving DecidableEq, Repr

namespace Failure

/-- The words for a failure. -/
def text : Failure → String
  | notANumeral => "the argument was not a Church numeral"
  | notNull => "the argument was not null"
  | invalidUtf8 => Utf8.invalidSequence
  | aborted => "program aborted"
  | notAFunction => "null is not a function"

/-- The report of a failure. -/
def message (failure : Failure) : String :=
  "runtime error: " ++ failure.text

end Failure

end LambdaMachine
