import LambdaMachine.Arena.Grafting
import LambdaMachine.Arena.Redex

/-!
# Reading a numeral by counting

A term is read as a number by applying it to a step that counts and to the count
zero, and reducing. The step and the counts are leaves of an arena of their own, so
they can never appear in a program. That arena serves for one count, and nothing in it is
released. The reduction is by value and never goes under a binder; where it is stuck, or
ends in anything but a count, the term is no numeral.

As for all operations with fuel, `Arena.toNumber_mono` says that more fuel keeps a
finished result.
-/

namespace LambdaMachine

/-- The leaves of a term that is being counted. -/
inductive Tally where
  /-- Applied to a count, the next count. -/
  | increment
  /-- A count that has been reached. -/
  | count (n : Nat)
  /-- A leaf of the term that was given. It can be passed around but not applied. -/
  | inert
  deriving DecidableEq, Repr, Inhabited

/-- The largest count. -/
def Tally.limit : Nat := 0xFFFFFFFF

/-- What counting one further gives, unless the limit is reached. -/
def Tally.next? (n : Nat) : Option Tally :=
  if n < Tally.limit then some (.count (n + 1)) else none

/-- A count in progress: the application that is reduced and the path to it. -/
structure Counting where
  arena : Arena Tally
  redex : Ref
  path : Path

namespace Counting

/-- What one turn of counting leads to. -/
inductive Turn where
  | further (state : Counting)
  | stuck
  | counted (n : Nat)

/-- Put a result in the place of the application that gave it and go on one level up.
At the top the result is read off. -/
def settle (arena : Arena Tally) (path : Path) (result : Ref) : Except Fault Turn := do
  match path with
  | link :: path =>
      let arena ← arena.setChild link.parent link.side result
      return .further ⟨arena, link.parent, path⟩
  | [] =>
      match ← arena.read result with
      | .leaf (.count n) => return .counted n
      | _ => return .stuck

/-- Apply the counting step to what should be a count. -/
def increase (arena : Arena Tally) (path : Path) (argument : Ref) : Except Fault Turn := do
  match ← arena.read argument with
  | .leaf (.count n) =>
      match Tally.next? n with
      | some tally =>
          let (result, arena) := arena.alloc (.leaf tally)
          settle arena path result
      | none => return .stuck
  | _ => return .stuck

/-- Reduce an application whose parts are none. A contractum that is an application
is reduced next, in the same place. -/
def contract (fuel : Nat) (arena : Arena Tally) (path : Path) (function argument : Ref) :
    Except Fault Turn := do
  match ← arena.read function with
  | .lam _ =>
      let (body, arena) ← arena.graft fuel function argument
      if ← arena.isApp body then
        let arena ← arena.plug path body
        return .further ⟨arena, body, path⟩
      else
        settle arena path body
  | .leaf .increment => increase arena path argument
  | _ => return .stuck

/-- Go down to a part that is an application, or reduce. -/
def turn (fuel : Nat) (state : Counting) : Except Fault Turn := do
  let ⟨arena, redex, path⟩ := state
  match ← arena.focus redex with
  | .inner side ref => return .further ⟨arena, ref, ⟨redex, side⟩ :: path⟩
  | .ready function argument => contract fuel arena path function argument

/-- Count until the term is used up or stuck. -/
def run : Nat → Counting → Except Fault (Option Nat)
  | 0, _ => .error .outOfFuel
  | fuel + 1, state =>
      match turn fuel state with
      | .ok (.further state) => run fuel state
      | .ok .stuck => .ok none
      | .ok (.counted n) => .ok (some n)
      | .error fault => .error fault

theorem contract_mono {fuel fuel' : Nat} (hfuel : fuel ≤ fuel') (arena : Arena Tally)
    (path : Path) (function argument : Ref) :
    Refines (contract fuel arena path function argument)
      (contract fuel' arena path function argument) := by
  refine .bind (.refl _) fun head => ?_
  cases head with
  | lam _ => exact .bind (Arena.graft_mono hfuel _ _ _) fun _ => .refl _
  | leaf tally => cases tally <;> exact .refl _
  | _ => exact .refl _

theorem turn_mono {fuel fuel' : Nat} (hfuel : fuel ≤ fuel') (state : Counting) :
    Refines (turn fuel state) (turn fuel' state) := by
  refine .bind (.refl _) fun focus => ?_
  cases focus with
  | inner side ref => exact .refl _
  | ready function argument => exact contract_mono hfuel _ _ _ _

theorem run_mono {fuel fuel' : Nat} (hfuel : fuel ≤ fuel') (state : Counting) :
    Refines (run fuel state) (run fuel' state) := by
  induction fuel generalizing fuel' state with
  | zero => exact .inl rfl
  | succ fuel ih =>
      obtain ⟨fuel', rfl⟩ : ∃ n, fuel' = n + 1 := ⟨fuel' - 1, by omega⟩
      have hle : fuel ≤ fuel' := by omega
      rw [run, run]
      rcases turn_mono hle state with hcut | heq
      · exact .inl (by rw [hcut])
      · rw [← heq]
        cases turn fuel state with
        | error fault => exact .refl _
        | ok next =>
            cases next with
            | further state => exact ih hle state
            | stuck => exact .refl _
            | counted n => exact .refl _

/-- Apply a term to the counting step and to zero. -/
def start (arena : Arena Tally) (term : Ref) : Counting :=
  let (step, arena) := arena.alloc (.leaf .increment)
  let (start, arena) := arena.alloc (.leaf (.count 0))
  let (function, arena) := arena.alloc (.app term step)
  let (redex, arena) := arena.alloc (.app function start)
  ⟨arena, redex, []⟩

end Counting

/-- Read a term as a number and release it. -/
def Arena.toNumber {α : Type} (fuel : Nat) (arena : Arena α) (root : Ref) :
    Except Fault (Option Nat × Arena α) := do
  let (term, tallies) ← arena.transplant fuel root (fun _ => Tally.inert) .empty
  let arena ← arena.releaseTree fuel root
  let number ← Counting.run fuel (Counting.start tallies term)
  return (number, arena)

theorem Arena.toNumber_mono {α : Type} {fuel fuel' : Nat} (hfuel : fuel ≤ fuel')
    (arena : Arena α) (root : Ref) :
    Refines (arena.toNumber fuel root) (arena.toNumber fuel' root) :=
  .bind (transplant_mono hfuel _ _ _ _) fun _ =>
    .bind (releaseTree_mono hfuel _ _) fun _ =>
      .bind (Counting.run_mono hfuel _) fun _ => .refl _

end LambdaMachine
