import LambdaMachine.Arena.Basic

/-!
# Finding the next redex

Reduction goes by value: the function part of an application is reduced before the
argument part, and both before the application itself. A position in a term is a path
of links, the innermost first, so that going down pushes a link, and putting a result
into place pops one.
-/

namespace LambdaMachine

/-- A link from an application to one of its parts. -/
structure Link where
  parent : Ref
  side : Side
  deriving DecidableEq, Repr, Inhabited

/-- The links from the root of a term to a position in it, the innermost first. -/
abbrev Path := List Link

/-- What reducing an application begins with. -/
inductive Focus where
  /-- A part of the application is an application itself and is reduced first. -/
  | inner (side : Side) (ref : Ref)
  /-- Neither part is an application. -/
  | ready (function argument : Ref)
  deriving DecidableEq, Repr

namespace Arena

variable {α : Type}

/-- Decide what reducing the application in a slot begins with. -/
def focus (arena : Arena α) (ref : Ref) : Except Fault Focus := do
  match ← arena.read ref with
  | .app function argument =>
      if ← arena.isApp function then
        return .inner .function function
      else if ← arena.isApp argument then
        return .inner .argument argument
      else
        return .ready function argument
  | _ => .error (.notApplication ref)

/-- Link a term at the end of a path. At the empty path there is no link to change. -/
def plug (arena : Arena α) (path : Path) (ref : Ref) : Except Fault (Arena α) :=
  match path with
  | [] => .ok arena
  | link :: _ => arena.setChild link.parent link.side ref

end Arena

end LambdaMachine
