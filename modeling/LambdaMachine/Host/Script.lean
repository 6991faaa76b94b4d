import LambdaMachine.Host.Basic

/-!
# A scripted host

A host whose answers are laid down in advance, and which keeps a transcript of all
that happens to it. Equal runs give equal transcripts.
-/

namespace LambdaMachine.Script

/-- When the program is shown before an input character is given. -/
inductive Showing where
  /-- Only if there is no character. -/
  | whenEmpty
  | always
  | never
  deriving DecidableEq, Repr, Inhabited

/-- Something that happened to a host. -/
inductive Event where
  | put (character : Char)
  | shown (text : String)
  | got (character : Option Char)
  | drew (byte : UInt8)
  | logged (text : String)
  | reported (text : String)
  /-- Pauses with nothing between them. -/
  | slept (count : Nat)
  | traced (diagnostic : Diagnostic)
  deriving Repr

/-- The answers that are left, and the transcript with the last event first. -/
structure World where
  input : List Char := []
  /-- The random bytes. When they are used up, zeros follow. -/
  random : List UInt8 := []
  showing : Showing := .whenEmpty
  /-- Which pause of all asks to stop, counted from one. -/
  abortAt : Option Nat := none
  /-- Whether diagnostics are part of the transcript. -/
  tracing : Bool := false
  sleeps : Nat := 0
  transcript : List Event := []
  deriving Inhabited

namespace World

/-- Note an event. -/
def note (event : Event) (world : World) : World :=
  { world with transcript := event :: world.transcript }

/-- Note a pause, together with the pauses right before it. -/
def noteSleep (world : World) : World :=
  match world.transcript with
  | .slept count :: rest => { world with transcript := .slept (count + 1) :: rest }
  | rest => { world with transcript := .slept 1 :: rest }

/-- Take the next input character. -/
def takeChar (world : World) : Option Char × World :=
  match world.input with
  | character :: input => (some character, { world with input := input })
  | [] => (none, world)

/-- Take the next random byte. -/
def takeByte (world : World) : UInt8 × World :=
  match world.random with
  | byte :: random => (byte, { world with random := random })
  | [] => (0, world)

/-- Whether the program is shown before the next character. -/
def shows (world : World) : Bool :=
  match world.showing with
  | .whenEmpty => world.input.isEmpty
  | .always => true
  | .never => false

/-- Give the next input character, and note it and what was shown before. -/
def get (text : Option String) (world : World) : Option Char × World :=
  let world :=
    match text with
    | some text => world.note (.shown text)
    | none => world
  let (character, world) := world.takeChar
  (character, world.note (.got character))

/-- Give the next random byte and note it. -/
def draw (world : World) : UInt8 × World :=
  let (byte, world) := world.takeByte
  (byte, world.note (.drew byte))

/-- Pause, and ask to stop if this is the pause to do so. -/
def sleep (world : World) : Bool × World :=
  let sleeps := world.sleeps + 1
  (world.abortAt == some sleeps, { world.noteSleep with sleeps := sleeps })

/-- Note a diagnostic if diagnostics are part of the transcript. -/
def trace (diagnostic : Diagnostic) (world : World) : World :=
  if world.tracing then world.note (.traced diagnostic) else world

/-- Add answers behind those that are left. -/
def feed (input : List Char) (random : List UInt8) (world : World) : World :=
  { world with input := world.input ++ input, random := world.random ++ random }

/-- Take the transcript, in order, and begin a new one. -/
def takeTranscript (world : World) : List Event × World :=
  (world.transcript.reverse, { world with transcript := [] })

end World

/-- The host that answers from the script. -/
def host : Host World where
  put character := World.note (.put character)
  shows := World.shows
  get := World.get
  random := World.draw
  log text := World.note (.logged text)
  report text := World.note (.reported text)
  sleep := World.sleep
  trace := World.trace

end LambdaMachine.Script
