import LambdaMachine.Machine.Run
import LambdaMachine.Source.Excerpt
import LambdaMachine.Utf8.Block

/-!
# Programs on byte streams

A console host reads its characters from a stream of bytes, writes characters as
UTF-8, and writes messages to a second stream, each on a line of its own. Here is
also what executing a program file on a console amounts to.
-/

namespace LambdaMachine.Console

/-- The streams of a console. What was written last stands first in `output`. -/
structure Streams where
  input : List UInt8 := []
  output : List UInt8 := []
  messages : String := ""
  /-- The random bytes. When they are used up, zeros follow. -/
  random : List UInt8 := []

namespace Streams

/-- Streams with bytes to read, and with the random bytes that a generator gives for a
seed. Without a generator there are none. -/
def start (input : List UInt8) (seed : Nat)
    (generate : Nat → List UInt8 := fun _ => []) : Streams :=
  { input, random := generate seed }

/-- Write a character. -/
def put (character : Char) (streams : Streams) : Streams :=
  { streams with
    output := (String.utf8EncodeChar character).reverseAux streams.output }

/-- Read a character. -/
def get (streams : Streams) : Option Char × Streams :=
  let (character, input) := Utf8.takeChar streams.input
  (character, { streams with input := input })

/-- Draw a random byte. -/
def draw (streams : Streams) : UInt8 × Streams :=
  match streams.random with
  | byte :: random => (byte, { streams with random := random })
  | [] => (0, streams)

/-- Write a line of messages. -/
def say (text : String) (streams : Streams) : Streams :=
  { streams with messages := (streams.messages ++ text).push '\n' }

end Streams

/-- The host on the streams of a console. It never asks to stop, and keeps no
diagnostics. -/
def host : Host Streams where
  put := Streams.put
  shows _ := false
  get _ := Streams.get
  random := Streams.draw
  log := Streams.say
  report := Streams.say
  sleep streams := (false, streams)
  trace _ streams := streams

/-- How a program is executed. -/
structure Options where
  /-- The budget of steps, if there is one. -/
  steps : Option Nat := none
  /-- Whether the program is logged after loading and after running. -/
  dump : Bool := false
  deriving Repr, Inhabited

/-- Load a text. A rejected text is shown with its error highlighted, and there is no
session. -/
def load (fuel : Nat) (text : String) (options : Options) (streams : Streams)
    (render : Excerpt.Renderer := Excerpt.render) :
    Except Fault (Except Streams (Session Streams)) := do
  match ← Session.load host fuel text options.dump ⟨.empty, streams⟩ with
  | (some error, session) => return .error (session.world.say (error.highlight text render))
  | (none, session) => return .ok session

/-- How an execution ended. -/
structure Outcome where
  succeeded : Bool
  streams : Streams

/-- Execute a program given as bytes. A program that is missing or is not UTF-8 fails
without a message. -/
def execute (fuel : Nat) (program : Option ByteArray) (options : Options)
    (streams : Streams) (render : Excerpt.Renderer := Excerpt.render) :
    Except Fault Outcome := do
  match program.bind String.fromUTF8? with
  | none => return ⟨false, streams⟩
  | some text =>
      match ← load fuel text options streams render with
      | .error streams => return ⟨false, streams⟩
      | .ok session =>
          let (failure, session) ← session.run host fuel options.steps options.dump
          return ⟨failure.isNone, session.world⟩

end LambdaMachine.Console
