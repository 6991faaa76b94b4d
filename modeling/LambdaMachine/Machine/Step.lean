import LambdaMachine.Machine.Basic
import LambdaMachine.Numeral.Church
import LambdaMachine.Numeral.Counting

/-!
# One step

A step goes down to a part that is an application, or reduces an application whose
parts are none. A contraction may leave an application in its place, which is reduced
next; every other result is put into the place of the redex, and the machine goes up.

A reduction that is refused leaves the session as it was, apart from a call for input
that found none. Only an operand that is no numeral is gone by then: a marker stands
in the place of the redex.
-/

namespace LambdaMachine

/-- An application whose parts are no applications. -/
structure Redex where
  node : Ref
  function : Ref
  argument : Ref
  deriving DecidableEq, Repr

namespace Arena

variable {α : Type}

/-- Release an application and its two parts. -/
def releaseRedex (arena : Arena α) (redex : Redex) : Except Fault (Arena α) := do
  let arena ← arena.release redex.argument
  let arena ← arena.release redex.function
  arena.release redex.node

end Arena

namespace Cursor

/-- Put a term into the place of the redex. -/
def replace (cursor : Cursor) (arena : Program) (ref : Ref) :
    Except Fault (Program × Cursor) := do
  match cursor.path with
  | [] => return (arena, { cursor with root := some ref })
  | link :: _ => return (← arena.setChild link.parent link.side ref, cursor)

/-- The cursor one level up. Above the root there is no redex. -/
def up (cursor : Cursor) : Cursor :=
  match cursor.path with
  | [] => { cursor with redex := none }
  | link :: path => { cursor with redex := some link.parent, path := path }

end Cursor

namespace Session

variable {σ : Type}

/-- What a step leads to: a session, and why the step was refused if it was. -/
abbrev Outcome (σ : Type) := Option Failure × Session σ

/-- Put a result into the place of the redex and go up. At the root the program
halts. -/
def install (host : Host σ) (result : Ref) (session : Session σ) :
    Except Fault (Session σ) := do
  let ⟨⟨arena, cursor, assembler, splitter⟩, world⟩ := session
  let (arena, cursor) ← cursor.replace arena result
  let cursor := cursor.up
  let world := if cursor.redex.isNone then host.trace (.halted arena.live) world else world
  return ⟨⟨arena, cursor, assembler, splitter⟩, world⟩

/-- Reduce an abstraction applied to an argument. -/
def contract (host : Host σ) (fuel : Nat) (redex : Redex) (session : Session σ) :
    Except Fault (Session σ) := do
  let ⟨⟨arena, cursor, assembler, splitter⟩, world⟩ := session
  let (body, arena) ← arena.beta fuel redex.function redex.argument
  let arena ← arena.release redex.node
  if ← arena.isApp body then
    let (arena, cursor) ← cursor.replace arena body
    return ⟨⟨arena, { cursor with redex := some body }, assembler, splitter⟩, world⟩
  else
    install host body ⟨⟨arena, cursor, assembler, splitter⟩, world⟩

/-- Read the operand of `put` as a number. -/
def takeNumeral (host : Host σ) (fuel : Nat) (redex : Redex) (session : Session σ) :
    Except Fault (Outcome σ) := do
  let ⟨⟨arena, cursor, assembler, splitter⟩, world⟩ := session
  let (number, arena) ← arena.toNumber fuel redex.argument
  let arena ← arena.release redex.function
  let arena ← arena.release redex.node
  let (result, arena) := arena.alloc (.leaf (.pending number))
  if number.isSome then
    return (none, ← install host result ⟨⟨arena, cursor, assembler, splitter⟩, world⟩)
  else
    let (arena, cursor) ← cursor.replace arena result
    let cursor := { cursor.up with redex := none }
    return (some .notANumeral, ⟨⟨arena, cursor, assembler, splitter⟩, world⟩)

/-- Put a number out as the next byte. -/
def putByte (host : Host σ) (redex : Redex) (number : Option Nat) (session : Session σ) :
    Except Fault (Outcome σ) := do
  match number.map session.machine.assembler.push with
  | none => return (some .invalidUtf8, session)
  | some .refused => return (some .invalidUtf8, session)
  | some reception =>
      let ⟨⟨arena, cursor, assembler, splitter⟩, world⟩ := session
      let world :=
        match reception with
        | .completed character => host.put character world
        | _ => world
      let arena ← arena.releaseRedex redex
      let (result, arena) := arena.alloc (.leaf .unit)
      let session ← install host result
        ⟨⟨arena, cursor, assembler.after reception, splitter⟩, world⟩
      return (none, session)

/-- Put the numeral of a byte into the place of a redex that is used up. -/
def giveByte (host : Host σ) (redex : Redex) (byte : UInt8) (session : Session σ) :
    Except Fault (Outcome σ) := do
  let ⟨⟨arena, cursor, assembler, splitter⟩, world⟩ := session
  let arena ← arena.releaseRedex redex
  let (result, arena) := arena.church byte.toNat
  return (none, ← install host result ⟨⟨arena, cursor, assembler, splitter⟩, world⟩)

/-- Get the next input byte. -/
def getByte (host : Host σ) (fuel : Nat) (redex : Redex) (session : Session σ) :
    Except Fault (Outcome σ) := do
  let ⟨⟨arena, cursor, assembler, splitter⟩, world⟩ := session
  match ← host.nextByte (fun _ => arena.listing fuel cursor.root cursor.redex) splitter
    world with
  | (some byte, splitter, world) =>
      giveByte host redex byte ⟨⟨arena, cursor, assembler, splitter⟩, world⟩
  | (none, splitter, world) =>
      return (some .aborted, ⟨⟨arena, cursor, assembler, splitter⟩, world⟩)

/-- Draw a random byte. -/
def drawByte (host : Host σ) (redex : Redex) (session : Session σ) :
    Except Fault (Outcome σ) :=
  let ⟨machine, world⟩ := session
  let (byte, world) := host.random world
  giveByte host redex byte ⟨machine, world⟩

/-- Reduce with a built-in that takes the unit. -/
def withUnit (redex : Redex) (reduce : Session σ → Except Fault (Outcome σ))
    (session : Session σ) : Except Fault (Outcome σ) := do
  match ← session.machine.arena.read redex.argument with
  | .leaf .unit => reduce session
  | _ => return (some .notNull, session)

/-- Reduce an application by what its function part is. -/
def reduce (host : Host σ) (fuel : Nat) (redex : Redex) (session : Session σ) :
    Except Fault (Outcome σ) := do
  let head ← session.machine.arena.read redex.function
  let session := session.trace host (.reducing head session.machine.cursor.path)
  match head with
  | .lam _ => return (none, ← session.contract host fuel redex)
  | .leaf .put => session.takeNumeral host fuel redex
  | .leaf (.pending number) => session.withUnit redex (putByte host redex number)
  | .leaf .get => session.withUnit redex (getByte host fuel redex)
  | .leaf .random => session.withUnit redex (drawByte host redex)
  | _ => return (some .notAFunction, session)

/-- One step of an unfinished program. -/
def step (host : Host σ) (fuel : Nat) (session : Session σ) : Except Fault (Outcome σ) := do
  match session.machine.cursor.redex with
  | none => return (none, session)
  | some node =>
      match ← session.machine.arena.focus node with
      | .inner side ref =>
          let ⟨⟨arena, cursor, assembler, splitter⟩, world⟩ := session
          let cursor := { cursor with redex := some ref, path := ⟨node, side⟩ :: cursor.path }
          return (none, ⟨⟨arena, cursor, assembler, splitter⟩, world⟩)
      | .ready function argument => session.reduce host fuel ⟨node, function, argument⟩

end Session

/-- Whether the next step takes a character from the host. -/
def Machine.takesCharacter (machine : Machine) : Bool :=
  match machine.cursor.redex.map machine.arena.focus with
  | some (.ok (.ready function argument)) =>
      machine.arena.node? function == some (.leaf .get)
        && machine.arena.node? argument == some (.leaf .unit)
        && machine.splitter.owed.isEmpty
  | _ => false

end LambdaMachine
