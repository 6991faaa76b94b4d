import LambdaMachine.Host.Console

/-!
# Command-line arguments

A command line names one program, and may set a budget of steps, a seed for the
random bytes, and the logging of listings. A value follows its option as the next
argument or behind an equals sign.
-/

namespace LambdaMachine

/-- What a command line asks for. -/
structure CommandLine where
  program : Option String := none
  seed : Option Nat := none
  options : Console.Options := {}
  deriving Repr, Inhabited

namespace CommandLine

/-- The name of the program that stands for standard input. -/
def standardInput : String := "-"

/-- How the command is used. -/
def usage : String := "usage: lambdamachine [--steps N] [--seed N] [--dump] PROGRAM"

/-- Set an option that has a number. -/
def setNumber (name value : String) (line : CommandLine) : Option CommandLine := do
  let number ← value.toNat?
  match name with
  | "--steps" => some { line with options := { line.options with steps := some number } }
  | "--seed" => some { line with seed := some number }
  | _ => none

/-- Read arguments on top of those already read. An argument that is no option is the
program. -/
def read (line : CommandLine) : List String → Option CommandLine
  | [] => if line.program.isSome then some line else none
  | "--dump" :: rest => read { line with options := { line.options with dump := true } } rest
  | "--steps" :: value :: rest => do read (← setNumber "--steps" value line) rest
  | "--seed" :: value :: rest => do read (← setNumber "--seed" value line) rest
  | argument :: rest =>
      if argument.startsWith "--" then
        match argument.splitOn "=" with
        | [name, value] => do read (← setNumber name value line) rest
        | _ => none
      else if line.program.isNone then read { line with program := some argument } rest
      else none

/-- Read the arguments of a command, `none` if they make no sense. -/
def ofArguments (arguments : List String) : Option CommandLine :=
  read {} arguments

end CommandLine

end LambdaMachine
