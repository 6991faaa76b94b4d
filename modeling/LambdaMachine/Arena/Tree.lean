import LambdaMachine.Arena.Traversal

/-!
# Whole subtrees of an arena

Releasing a subtree, copying one inside its arena, and copying one into an arena
with other leaves. All three are traversals that go from left to right.

The statements `releaseTree_mono`, `clone_mono` and `transplant_mono` say that a
finished operation does not depend on the fuel that it was given.
-/

namespace LambdaMachine.Arena

variable {α β : Type}

/-- Store a copy of one node, with links to the children of the old one. -/
def copyNode (arena : Arena α) (ref : Ref) : Except Fault (Ref × Arena α) := do
  return arena.alloc (← arena.read ref)

/-- Release one node and go on with its children. -/
def releaseVisit (ref : Ref) (arena : Arena α) : Except Fault (List Ref × Arena α) := do
  let node ← arena.read ref
  let arena ← arena.release ref
  return (node.children, arena)

/-- Release a node and everything below it. -/
def releaseTree (fuel : Nat) (arena : Arena α) (root : Ref) : Except Fault (Arena α) :=
  traverse releaseVisit fuel [root] arena

/-- Give a copied node children of its own in place of those of the old node, and go
on with them. -/
def cloneVisit (copy : Ref) (arena : Arena α) : Except Fault (List Ref × Arena α) := do
  match ← arena.read copy with
  | .lam body =>
      let (body, arena) ← arena.copyNode body
      let arena ← arena.write copy (.lam body)
      return ([body], arena)
  | .app function argument =>
      let (function, arena) ← arena.copyNode function
      let (argument, arena) ← arena.copyNode argument
      let arena ← arena.write copy (.app function argument)
      return ([function, argument], arena)
  | .var _ => return ([], arena)
  | .leaf _ => return ([], arena)

/-- Copy a node and everything below it. A node reached twice is copied twice. -/
def clone (fuel : Nat) (arena : Arena α) (root : Ref) : Except Fault (Ref × Arena α) := do
  let (copy, arena) ← arena.copyNode root
  let arena ← traverse cloneVisit fuel [copy] arena
  return (copy, arena)

/-- A node of one arena and the slot of another arena that its copy shall fill. -/
structure Planting where
  source : Ref
  target : Ref

/-- A node that keeps a slot until its own node is known. -/
def placeholder : Node β := .var 0

/-- Fill one slot and go on with slots for the children. -/
def transplantVisit (source : Arena α) (relabel : α → β) (planting : Planting)
    (arena : Arena β) : Except Fault (List Planting × Arena β) := do
  match ← source.read planting.source with
  | .lam body =>
      let (copy, arena) := arena.alloc placeholder
      let arena ← arena.write planting.target (.lam copy)
      return ([⟨body, copy⟩], arena)
  | .app function argument =>
      let (left, arena) := arena.alloc placeholder
      let (right, arena) := arena.alloc placeholder
      let arena ← arena.write planting.target (.app left right)
      return ([⟨function, left⟩, ⟨argument, right⟩], arena)
  | .var index =>
      let arena ← arena.write planting.target (.var index)
      return ([], arena)
  | .leaf value =>
      let arena ← arena.write planting.target (.leaf (relabel value))
      return ([], arena)

/-- Copy a tree into an arena with other leaves. A node reached twice is copied
twice, so the copy is a tree even where the source shares nodes. -/
def transplant (fuel : Nat) (source : Arena α) (root : Ref) (relabel : α → β)
    (arena : Arena β) : Except Fault (Ref × Arena β) := do
  let (copy, arena) := arena.alloc placeholder
  let arena ← traverse (transplantVisit source relabel) fuel [⟨root, copy⟩] arena
  return (copy, arena)

theorem releaseTree_mono {fuel fuel' : Nat} (hfuel : fuel ≤ fuel') (arena : Arena α)
    (root : Ref) : Refines (arena.releaseTree fuel root) (arena.releaseTree fuel' root) :=
  traverse_mono (fun _ _ => .refl _) hfuel _ _

theorem clone_mono {fuel fuel' : Nat} (hfuel : fuel ≤ fuel') (arena : Arena α) (root : Ref) :
    Refines (arena.clone fuel root) (arena.clone fuel' root) :=
  .bind (.refl _) fun _ =>
    .bind (traverse_mono (fun _ _ => .refl _) hfuel _ _) fun _ => .refl _

theorem transplant_mono {fuel fuel' : Nat} (hfuel : fuel ≤ fuel') (source : Arena α)
    (root : Ref) (relabel : α → β) (arena : Arena β) :
    Refines (source.transplant fuel root relabel arena)
      (source.transplant fuel' root relabel arena) :=
  .bind (traverse_mono (fun _ _ => .refl _) hfuel _ _) fun _ => .refl _

end LambdaMachine.Arena
