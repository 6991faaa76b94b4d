import LambdaMachine.Arena.Substitution

/-!
# Contraction in an arena that only grows

An arena that is thrown away as a whole has no use for slots given back. Grafting puts the
argument in place of the occurrences of a bound variable as substitution does: it is moved
into the leftmost one, and every later one receives a copy. But nothing is released: the
nodes of the occurrences, the abstraction, and an argument that no occurrence has received
stay in their slots, though nothing links to them any more.

As for all operations with fuel, `graft_mono` says that more fuel keeps a finished result.
-/

namespace LambdaMachine.Arena

variable {α : Type}

/-- Look at the node behind one link: link another one in its place if it is an
occurrence, and go on with its own links if it has any. -/
def graftVisit (fuel : Nat) (argument : Ref) (site : Site) (state : Substituted α) :
    Except Fault (List Site × Substituted α) := do
  let child ← state.arena.child site.parent site.side
  match ← state.arena.read child with
  | .lam _ => return ([⟨child, .body, site.depth + 1⟩], state)
  | .app _ _ =>
      return ([⟨child, .function, site.depth⟩, ⟨child, .argument, site.depth⟩], state)
  | .var index =>
      if index = site.depth then
        let count := state.count
        let (value, arena) ← supply fuel argument state
        let arena ← arena.setChild site.parent site.side value
        return ([], ⟨arena, count + 1⟩)
      else
        return ([], state)
  | .leaf _ => return ([], state)

/-- Put `argument` in place of every variable bound by the abstraction `function` and give
the root of the body. -/
def graft (fuel : Nat) (arena : Arena α) (function argument : Ref) :
    Except Fault (Ref × Arena α) := do
  let state ← traverse (graftVisit fuel argument) fuel [⟨function, .body, 0⟩] ⟨arena, 0⟩
  let body ← state.arena.child function .body
  return (body, state.arena)

theorem graftVisit_mono {fuel fuel' : Nat} (hfuel : fuel ≤ fuel') (argument : Ref)
    (site : Site) (state : Substituted α) :
    Refines (graftVisit fuel argument site state) (graftVisit fuel' argument site state) := by
  refine .bind (.refl _) fun child => .bind (.refl _) fun node => ?_
  cases node with
  | var index =>
      dsimp only
      split
      · exact .bind (supply_mono hfuel _ _) fun _ => .refl _
      · exact .refl _
  | _ => exact .refl _

theorem graft_mono {fuel fuel' : Nat} (hfuel : fuel ≤ fuel') (arena : Arena α)
    (function argument : Ref) :
    Refines (arena.graft fuel function argument) (arena.graft fuel' function argument) :=
  .bind (traverse_mono (graftVisit_mono hfuel argument) hfuel _ _) fun _ => .refl _

end LambdaMachine.Arena
