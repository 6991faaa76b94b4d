import LambdaMachine.Host.Basic
import LambdaMachine.Source.Listing
import LambdaMachine.Source.Parser
import LambdaMachine.Utf8.Assembler

/-!
# The machine

A machine holds one program, the place where it is being reduced, and what it has put
out or taken in of an unfinished character. Together with the world of a host it is a
session.
-/

namespace LambdaMachine

/-- Where a program is being reduced: the path leads from the root to the redex. There
is no redex once the program has ended. -/
structure Cursor where
  root : Option Ref := none
  redex : Option Ref := none
  path : Path := []
  deriving DecidableEq, Repr, Inhabited

/-- A program under reduction. -/
structure Machine where
  arena : Program := {}
  cursor : Cursor := {}
  assembler : Utf8.Assembler := {}
  splitter : Utf8.Splitter := {}
  deriving Inhabited

namespace Machine

/-- The machine without a program. -/
def empty : Machine := {}

/-- Whether no redex is left: the program halted or failed, or there is none. -/
def ended (machine : Machine) : Bool :=
  machine.cursor.redex.isNone

/-- The text of the program, with the redex in brackets. -/
def listing (fuel : Nat) (machine : Machine) : Except Fault String :=
  machine.arena.listing fuel machine.cursor.root machine.cursor.redex

end Machine

/-- A machine and the world of its host. -/
structure Session (σ : Type) where
  machine : Machine
  world : σ

namespace Session

variable {σ : Type}

/-- Pass a diagnostic to the host. -/
def trace (host : Host σ) (diagnostic : Diagnostic) (session : Session σ) : Session σ :=
  ⟨session.machine, host.trace diagnostic session.world⟩

/-- Log the text of the program. -/
def logListing (host : Host σ) (fuel : Nat) (session : Session σ) :
    Except Fault (Session σ) := do
  let text ← session.machine.listing fuel
  return ⟨session.machine, host.log text session.world⟩

/-- Remove the program. -/
def unload (host : Host σ) (session : Session σ) : Session σ :=
  trace host .unloaded ⟨.empty, session.world⟩

/-- Load a text in place of the program, and log its listing if asked to. A rejected
text is reported and leaves the machine empty. -/
def load (host : Host σ) (fuel : Nat) (text : String) (log : Bool) (session : Session σ) :
    Except Fault (Option SyntaxError × Session σ) := do
  let ⟨_, world⟩ := session.unload host
  match Source.parse text .empty with
  | ⟨_, .error error⟩ =>
      let world := host.trace (.rejected error.position) world
      return (some error, ⟨.empty, host.report error.message world⟩)
  | ⟨arena, .ok root⟩ =>
      let reducible ← arena.isApp root
      let world := host.trace (.loaded arena.live (!reducible)) world
      let redex := if reducible then some root else none
      let session : Session σ := ⟨{ arena, cursor := ⟨some root, redex, []⟩ }, world⟩
      if log then
        return (none, ← session.logListing host fuel)
      else
        return (none, session)

end Session

end LambdaMachine
