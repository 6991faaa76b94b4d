import LambdaMachine.Arena.Redex
import LambdaMachine.Atom
import LambdaMachine.Machine.Failure
import LambdaMachine.Source.Position
import LambdaMachine.Utf8.Splitter

/-!
# Hosts

A host is all that a program can reach outside its arena: characters out and in,
random bytes, two channels for messages, and a pause between reductions. It acts on a
world of its own, so a run with a host is a function of the world that it starts in.
-/

namespace LambdaMachine

/-- What a machine tells about its own progress. -/
inductive Diagnostic where
  /-- The program was removed. -/
  | unloaded
  /-- A text was rejected at a position. -/
  | rejected (position : Position)
  /-- A program was loaded, of some number of nodes. -/
  | loaded (nodes : Nat) (halted : Bool)
  /-- An application with this function part, at this place, is about to be reduced. -/
  | reducing (function : Node Atom) (path : Path)
  /-- The program ended in a value, of some number of nodes. -/
  | halted (nodes : Nat)
  /-- The program failed. -/
  | stopped (failure : Failure)
  deriving Repr

/-- How much a diagnostic matters. -/
inductive Diagnostic.Level where
  | trace
  | debug
  | info
  | warn
  deriving DecidableEq, Repr

namespace Diagnostic

/-- The level of a diagnostic. -/
def level : Diagnostic → Level
  | unloaded => .debug
  | rejected _ => .debug
  | loaded _ _ => .debug
  | reducing _ _ => .trace
  | halted _ => .info
  | stopped _ => .warn

/-- The words of a diagnostic, apart from its data. -/
def message : Diagnostic → String
  | unloaded => "program unloaded"
  | rejected _ => "program rejected"
  | loaded _ _ => "program loaded"
  | reducing _ _ => "reduce"
  | halted _ => "program halted"
  | stopped _ => "program stopped"

end Diagnostic

/-- What a machine may do outside its arena, acting on a world. -/
structure Host (σ : Type) where
  /-- Take an output character. -/
  put : Char → σ → σ
  /-- Whether the program shall be shown before the next input character. -/
  shows : σ → Bool
  /-- Give the next input character, or none at the end of the input. The text of the
  program is given if it is to be shown. -/
  get : Option String → σ → Option Char × σ
  /-- Give a random byte. -/
  random : σ → UInt8 × σ
  /-- Take a text for the log. -/
  log : String → σ → σ
  /-- Take the report of an error. -/
  report : String → σ → σ
  /-- Pause between two reductions. The answer says whether to stop. -/
  sleep : σ → Bool × σ
  /-- Take a diagnostic. -/
  trace : Diagnostic → σ → σ

namespace Host

variable {σ : Type}

/-- The next input character. The text of the program is made only if it is to be
shown. -/
def nextChar (host : Host σ) (text : Unit → Except Fault String) (world : σ) :
    Except Fault (Option Char × σ) := do
  if host.shows world then
    let text ← text ()
    return host.get (some text) world
  else
    return host.get none world

/-- The next input byte: one that is owed, or the first of the next character. -/
def nextByte (host : Host σ) (text : Unit → Except Fault String)
    (splitter : Utf8.Splitter) (world : σ) :
    Except Fault (Option UInt8 × Utf8.Splitter × σ) := do
  match splitter.pending with
  | (some byte, splitter) => return (some byte, splitter, world)
  | (none, _) =>
      match ← host.nextChar text world with
      | (some character, world) =>
          let (byte, splitter) := Utf8.Splitter.start character
          return (some byte, splitter, world)
      | (none, world) => return (none, splitter, world)

end Host

end LambdaMachine
