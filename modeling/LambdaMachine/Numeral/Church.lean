import LambdaMachine.Arena.Basic

/-!
# Church numerals

The numeral of `n` takes a function and a start value and applies the function `n`
times.
-/

namespace LambdaMachine.Arena

variable {α : Type}

/-- Apply the variable of the outer abstraction `n` times to a body. -/
def iterateOuter : Nat → Ref → Arena α → Ref × Arena α
  | 0, body, arena => (body, arena)
  | n + 1, body, arena =>
      let (function, arena) := arena.alloc (.var 1)
      let (body, arena) := arena.alloc (.app function body)
      iterateOuter n body arena

/-- Build the numeral of `n`: two abstractions over `n` nested applications of the
outer variable that end in the inner variable. -/
def church (arena : Arena α) (n : Nat) : Ref × Arena α :=
  let (innermost, arena) := arena.alloc (.var 0)
  let (body, arena) := iterateOuter n innermost arena
  let (inner, arena) := arena.alloc (.lam body)
  arena.alloc (.lam inner)

end LambdaMachine.Arena
