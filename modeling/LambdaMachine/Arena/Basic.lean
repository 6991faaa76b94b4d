/-!
# Arenas of term nodes

A term is held as nodes in numbered slots. A node refers to its children by slot
number, so a child can be exchanged in place and a whole subtree can be moved by
changing one link. Released slots are given out again, the last released first.

Every operation that needs a node to be in its slot says so: where the slot is
empty, or the node lacks the asked side, the operation ends in a `Fault`.
-/

namespace LambdaMachine

/-- The number of a slot. -/
abbrev Ref := Nat

/-- A place for a child: the body of an abstraction or one of the two parts of an
application. -/
inductive Side where
  | body
  | function
  | argument
  deriving DecidableEq, Repr, Inhabited

/-- A term node over leaves of type `α`. Variables count binders from the inside,
starting at zero. -/
inductive Node (α : Type) where
  | lam (body : Ref)
  | app (function argument : Ref)
  | var (index : Nat)
  | leaf (value : α)
  deriving DecidableEq, Repr, Inhabited

/-- A broken invariant of the arena, or a bound on the work that was too small. -/
inductive Fault where
  /-- A slot without a node was read or written. -/
  | dangling (ref : Ref)
  /-- A slot without a node was released. -/
  | alreadyFree (ref : Ref)
  /-- A node was asked for a side that it does not have. -/
  | noChild (ref : Ref) (side : Side)
  /-- A node that should be reduced is no application. -/
  | notApplication (ref : Ref)
  /-- The work was cut off before it was finished. -/
  | outOfFuel
  deriving DecidableEq, Repr

namespace Node

variable {α : Type}

/-- The children of a node from left to right. -/
def children : Node α → List Ref
  | lam body => [body]
  | app function argument => [function, argument]
  | var _ => []
  | leaf _ => []

/-- Whether the node is an application. -/
def isApp : Node α → Bool
  | app _ _ => true
  | _ => false

/-- The child at a side, if the node has that side. -/
def child? : Node α → Side → Option Ref
  | lam body, .body => some body
  | app function _, .function => some function
  | app _ argument, .argument => some argument
  | _, _ => none

/-- The node with another child at a side, if it has that side. -/
def withChild? : Node α → Side → Ref → Option (Node α)
  | lam _, .body, ref => some (lam ref)
  | app _ argument, .function, ref => some (app ref argument)
  | app function _, .argument, ref => some (app function ref)
  | _, _, _ => none

/-- A node takes a child exactly at the sides where it has one. -/
theorem withChild?_isSome (node : Node α) (side : Side) (ref : Ref) :
    (node.withChild? side ref).isSome = (node.child? side).isSome := by
  cases node <;> cases side <;> rfl

end Node

/-- Slots of nodes, and the released slots with the last released first. -/
structure Arena (α : Type) where
  slots : Array (Option (Node α)) := #[]
  free : List Ref := []
  deriving Inhabited

namespace Arena

variable {α : Type}

/-- The arena without slots. -/
def empty : Arena α := {}

/-- The node in a slot, if the slot exists and holds one. -/
def node? (arena : Arena α) (ref : Ref) : Option (Node α) :=
  arena.slots[ref]?.join

/-- The number of slots that hold a node. -/
def live (arena : Arena α) : Nat :=
  arena.slots.size - arena.free.length

/-- Store a node in the slot released last, or in a new slot if none is free. -/
def alloc (arena : Arena α) (node : Node α) : Ref × Arena α :=
  match arena with
  | ⟨slots, ref :: free⟩ => (ref, ⟨slots.setIfInBounds ref (some node), free⟩)
  | ⟨slots, []⟩ => (slots.size, ⟨slots.push (some node), []⟩)

/-- The node in a slot, which must hold one. -/
def read (arena : Arena α) (ref : Ref) : Except Fault (Node α) :=
  match arena.node? ref with
  | some node => .ok node
  | none => .error (.dangling ref)

/-- Exchange the node in a slot, which must hold one. -/
def write (arena : Arena α) (ref : Ref) (node : Node α) : Except Fault (Arena α) :=
  match arena.node? ref with
  | some _ => .ok { arena with slots := arena.slots.setIfInBounds ref (some node) }
  | none => .error (.dangling ref)

/-- Empty one slot, which must hold a node. The children stay. -/
def release (arena : Arena α) (ref : Ref) : Except Fault (Arena α) :=
  match arena.node? ref with
  | some _ => .ok ⟨arena.slots.setIfInBounds ref none, ref :: arena.free⟩
  | none => .error (.alreadyFree ref)

/-- The child of a node at a side. -/
def child (arena : Arena α) (parent : Ref) (side : Side) : Except Fault Ref := do
  match (← arena.read parent).child? side with
  | some ref => .ok ref
  | none => .error (.noChild parent side)

/-- Link another child to a node at a side. The old child stays in its slot. -/
def setChild (arena : Arena α) (parent : Ref) (side : Side) (child : Ref) :
    Except Fault (Arena α) := do
  match (← arena.read parent).withChild? side child with
  | some node => arena.write parent node
  | none => .error (.noChild parent side)

/-- Whether a slot holds an application. -/
def isApp (arena : Arena α) (ref : Ref) : Except Fault Bool := do
  return (← arena.read ref).isApp

end Arena

end LambdaMachine
