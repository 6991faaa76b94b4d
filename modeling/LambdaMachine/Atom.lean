import LambdaMachine.Arena.Basic

/-!
# The leaves of a program

Besides variables a program has the unit and the built-ins. The built-ins work on
bytes: one puts a byte out, one gets a byte, one draws a byte at random.
-/

namespace LambdaMachine

/-- A leaf of a program. -/
inductive Atom where
  /-- The value that built-ins take and give where nothing is meant. -/
  | unit
  /-- Takes a numeral, and then the unit. -/
  | put
  /-- `put` after it has taken its numeral. Without a number, the operand was no
  numeral. -/
  | pending (number : Option Nat)
  /-- Takes the unit and gives the numeral of the next input byte. -/
  | get
  /-- Takes the unit and gives the numeral of a random byte. -/
  | random
  deriving DecidableEq, Repr, Inhabited

/-- The nodes of a program. -/
abbrev Program := Arena Atom

end LambdaMachine
