import LambdaMachine.CommandLine

/-!
# The command

Runs a program with its output on standard output, its input on standard input, and
its messages on standard error. The program is run a step at a time; before a step
that takes a character, what was put out is flushed and one character is read. A random
byte lies ready before every step.
-/

namespace LambdaMachine.Main

open Console

/-- More work than any run can make. -/
def fuel : Nat := 0x3FFFFFFFFFFFFFFF

/-- Write what a program has put out so far. -/
def emit (streams : Streams) : IO Streams := do
  unless streams.output.isEmpty do
    (← IO.getStdout).write streams.output.reverse.toByteArray
  unless streams.messages.isEmpty do
    (← IO.getStderr).putStr streams.messages
  return { streams with output := [], messages := "" }

/-- Read bytes until there are enough of them or no more. -/
partial def readBytes (input : IO.FS.Stream) (count : Nat) (found : List UInt8) :
    IO (List UInt8) := do
  if count = 0 then return found
  let bytes ← input.read (USize.ofNat count)
  if bytes.isEmpty then return found
  readBytes input (count - bytes.size) (found ++ bytes.toList)

/-- Read the bytes of one character. -/
def readBlock : IO (List UInt8) := do
  let input ← IO.getStdin
  match ← readBytes input 1 [] with
  | [lead] => readBytes input ((Utf8.followers? lead).getD 0) [lead]
  | found => return found

/-- Draw a random byte. -/
def randomByte : IO UInt8 :=
  return UInt8.ofNat (← IO.rand 0 255)

/-- Run a program step by step within a budget. -/
partial def interact (budget : Option Nat) (session : Session Streams) :
    IO (Except Fault (Session.Outcome Streams)) := do
  let ⟨machine, streams⟩ := session
  let streams ← emit streams
  if machine.ended || budget == some 0 then
    return .ok (none, ⟨machine, streams⟩)
  let reading := machine.takesCharacter
  if reading then (← IO.getStdout).flush
  let arrived ← if reading then readBlock else pure []
  let random ← if streams.random.isEmpty then pure [← randomByte] else pure streams.random
  let session : Session Streams :=
    ⟨machine, { streams with input := streams.input ++ arrived, random }⟩
  match session.run host fuel (some 1) false with
  | .ok (none, session) => interact (budget.map (· - 1)) session
  | finished => return finished

/-- Load a program, run it, and give the exit status. -/
def execute (program : Option ByteArray) (options : Options) : IO (Except Fault Bool) := do
  let some text := program.bind String.fromUTF8? | return .ok false
  match load fuel text options {} with
  | .error fault => return .error fault
  | .ok (.error streams) =>
      discard (emit streams)
      return .ok false
  | .ok (.ok session) =>
      match ← interact options.steps session with
      | .error fault => return .error fault
      | .ok (some _, session) =>
          discard (emit session.world)
          return .ok false
      | .ok (none, session) =>
          match session.run host fuel (some 0) options.dump with
          | .error fault => return .error fault
          | .ok (_, session) =>
              discard (emit session.world)
              return .ok true

/-- The bytes of a program file, `none` if it cannot be read. -/
def readProgram (name : String) : IO (Option ByteArray) := do
  try
    if name == CommandLine.standardInput then
      return some (← (← IO.getStdin).readBinToEnd)
    else
      return some (← IO.FS.readBinFile name)
  catch _ => return none

end LambdaMachine.Main

open LambdaMachine in
/-- Run the program that the arguments name. -/
def main (arguments : List String) : IO UInt32 := do
  let some line := CommandLine.ofArguments arguments
    | (← IO.getStderr).putStrLn CommandLine.usage
      return 2
  let program ← Main.readProgram (line.program.getD CommandLine.standardInput)
  let seed ← match line.seed with
    | some seed => pure seed
    | none => do
        let bytes ← IO.getRandomBytes 8
        pure (bytes.foldl (fun seed byte => 256 * seed + byte.toNat) 0)
  IO.setRandSeed seed
  match ← Main.execute program line.options with
  | .ok true => return 0
  | .ok false => return 1
  | .error fault =>
      (← IO.getStderr).putStrLn (reprStr fault)
      return 3
