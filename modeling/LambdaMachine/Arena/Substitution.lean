import LambdaMachine.Arena.Tree

/-!
# Substitution and contraction

The argument of a contracted application is moved, not copied, into the leftmost
occurrence of the bound variable; every later occurrence receives a copy. Indices
are not shifted: programs are closed and nothing is contracted under a binder, so an
argument has no free variables that could be captured.

The statements `substitute_mono` and `beta_mono` say that a finished operation does
not depend on the fuel that it was given.
-/

namespace LambdaMachine.Arena

variable {α : Type}

/-- A link of a term, with the number of binders between the abstraction whose
variable is replaced and the link. -/
structure Site where
  parent : Ref
  side : Side
  depth : Nat

/-- A partly substituted arena and the number of occurrences replaced so far. -/
structure Substituted (α : Type) where
  arena : Arena α
  count : Nat

/-- What the next occurrence receives: the argument itself if it is the first one,
else a copy of it. -/
def supply (fuel : Nat) (argument : Ref) (state : Substituted α) :
    Except Fault (Ref × Arena α) :=
  if state.count = 0 then .ok (argument, state.arena)
  else state.arena.clone fuel argument

/-- Look at the node behind one link: replace it if it is an occurrence, and go on
with its own links if it has any. -/
def substituteVisit (fuel : Nat) (argument : Ref) (site : Site) (state : Substituted α) :
    Except Fault (List Site × Substituted α) := do
  let child ← state.arena.child site.parent site.side
  match ← state.arena.read child with
  | .lam _ => return ([⟨child, .body, site.depth + 1⟩], state)
  | .app _ _ =>
      return ([⟨child, .function, site.depth⟩, ⟨child, .argument, site.depth⟩], state)
  | .var index =>
      if index = site.depth then
        let count := state.count
        let (value, arena) ← supply fuel argument state
        let arena ← arena.setChild site.parent site.side value
        let arena ← arena.release child
        return ([], ⟨arena, count + 1⟩)
      else
        return ([], state)
  | .leaf _ => return ([], state)

/-- Replace every variable bound by the abstraction `function` by `argument`, and
count the occurrences replaced. -/
def substitute (fuel : Nat) (arena : Arena α) (function argument : Ref) :
    Except Fault (Substituted α) :=
  traverse (substituteVisit fuel argument) fuel [⟨function, .body, 0⟩] ⟨arena, 0⟩

/-- Release an argument that no occurrence has received. -/
def releaseUnused (fuel : Nat) (argument : Ref) (state : Substituted α) :
    Except Fault (Arena α) :=
  if state.count = 0 then state.arena.releaseTree fuel argument else .ok state.arena

/-- Contract the abstraction `function` applied to `argument` and give the root of
the body. The abstraction is released, and so is an argument that the body does not
use. The application itself stays. -/
def beta (fuel : Nat) (arena : Arena α) (function argument : Ref) :
    Except Fault (Ref × Arena α) := do
  let state ← arena.substitute fuel function argument
  let arena ← releaseUnused fuel argument state
  let body ← arena.child function .body
  let arena ← arena.release function
  return (body, arena)

theorem supply_mono {fuel fuel' : Nat} (hfuel : fuel ≤ fuel') (argument : Ref)
    (state : Substituted α) :
    Refines (supply fuel argument state) (supply fuel' argument state) := by
  unfold supply
  split
  · exact .refl _
  · exact clone_mono hfuel _ _

theorem substituteVisit_mono {fuel fuel' : Nat} (hfuel : fuel ≤ fuel') (argument : Ref)
    (site : Site) (state : Substituted α) :
    Refines (substituteVisit fuel argument site state)
      (substituteVisit fuel' argument site state) := by
  refine .bind (.refl _) fun child => .bind (.refl _) fun node => ?_
  cases node with
  | var index =>
      dsimp only
      split
      · exact .bind (supply_mono hfuel _ _) fun _ => .refl _
      · exact .refl _
  | _ => exact .refl _

theorem substitute_mono {fuel fuel' : Nat} (hfuel : fuel ≤ fuel') (arena : Arena α)
    (function argument : Ref) :
    Refines (arena.substitute fuel function argument)
      (arena.substitute fuel' function argument) :=
  traverse_mono (substituteVisit_mono hfuel argument) hfuel _ _

theorem releaseUnused_mono {fuel fuel' : Nat} (hfuel : fuel ≤ fuel') (argument : Ref)
    (state : Substituted α) :
    Refines (releaseUnused fuel argument state) (releaseUnused fuel' argument state) := by
  unfold releaseUnused
  split
  · exact releaseTree_mono hfuel _ _
  · exact .refl _

theorem beta_mono {fuel fuel' : Nat} (hfuel : fuel ≤ fuel') (arena : Arena α)
    (function argument : Ref) :
    Refines (arena.beta fuel function argument) (arena.beta fuel' function argument) :=
  .bind (substitute_mono hfuel _ _ _) fun _ =>
    .bind (releaseUnused_mono hfuel _ _) fun _ => .refl _

end LambdaMachine.Arena
