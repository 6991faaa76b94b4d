import LambdaMachine.Atom
import LambdaMachine.Source.SyntaxError
import LambdaMachine.Source.Token

/-!
# Reading a program

Tokens are read from left to right into an arena. What is begun but not finished
waits on a stack of frames, so the nesting of a program is not bounded. A leaf is
stored when it is read; an abstraction or application when its last part is
finished. A rejected text leaves what was stored up to then in the arena.
-/

namespace LambdaMachine

/-- A term that has been begun and waits for a part. -/
inductive Frame where
  /-- An abstraction without its body. -/
  | lam
  /-- An application without its parts. -/
  | app
  /-- An application without its argument. -/
  | appTo (function : Ref)
  deriving DecidableEq, Repr

/-- A program that is being read: the frames, the innermost first, and the number of
abstractions among them. -/
structure Reading where
  arena : Program
  frames : List Frame
  depth : Nat

namespace Reading

/-- Nothing read yet. -/
def start (arena : Program) : Reading := ⟨arena, [], 0⟩

/-- What a finished part leads to. -/
inductive Completion where
  /-- It was the last part of the program. -/
  | root (arena : Program) (ref : Ref)
  /-- An application still waits for its argument. -/
  | waiting (reading : Reading)

/-- Give a finished part to the innermost frame. A frame that it finishes is stored
and given on to the next one. -/
def complete (arena : Program) (depth : Nat) (ref : Ref) : List Frame → Completion
  | [] => .root arena ref
  | .lam :: frames =>
      let (ref, arena) := arena.alloc (.lam ref)
      complete arena (depth - 1) ref frames
  | .app :: frames => .waiting ⟨arena, .appTo ref :: frames, depth⟩
  | .appTo function :: frames =>
      let (ref, arena) := arena.alloc (.app function ref)
      complete arena depth ref frames

/-- What a token adds to the program. -/
inductive Meaning where
  /-- It begins an abstraction. -/
  | abstraction
  /-- It begins an application. -/
  | application
  /-- It is a leaf or a variable. -/
  | leaf (node : Node Atom)

/-- The meaning of a token under a number of abstractions. -/
def meaning (depth : Nat) : Token → Except SyntaxError.Kind Meaning
  | .lam => .ok .abstraction
  | .app => .ok .application
  | .unit => .ok (.leaf (.leaf .unit))
  | .dots index =>
      if index < depth then .ok (.leaf (.var index)) else .error .unboundArgument
  | .colons 0 => .ok (.leaf (.leaf .put))
  | .colons 1 => .ok (.leaf (.leaf .get))
  | .colons 2 => .ok (.leaf (.leaf .random))
  | .colons _ => .error .unknownBuiltin

end Reading

/-- The outcome of reading: a root or an error, and the arena with all that was
stored. -/
structure Parsed where
  arena : Program
  result : Except SyntaxError Ref

namespace Source

/-- What stands behind a finished program, which must be nothing. -/
def finish (arena : Program) (root : Ref) (ending : Ending) (stop : Position) :
    List (Position × Token) → Parsed
  | (position, _) :: _ => ⟨arena, .error ⟨.unexpectedToken, position⟩⟩
  | [] =>
      match ending with
      | .endOfText => ⟨arena, .ok root⟩
      | .strangeCharacter => ⟨arena, .error ⟨.unexpectedCharacter, stop⟩⟩

/-- Read tokens while parts are missing. -/
def readTokens (ending : Ending) (stop : Position) (reading : Reading) :
    List (Position × Token) → Parsed
  | [] =>
      match ending with
      | .endOfText => ⟨reading.arena, .error ⟨.unexpectedEnd, stop⟩⟩
      | .strangeCharacter => ⟨reading.arena, .error ⟨.unexpectedCharacter, stop⟩⟩
  | (position, token) :: tokens =>
      let ⟨arena, frames, depth⟩ := reading
      match Reading.meaning depth token with
      | .error kind => ⟨arena, .error ⟨kind, position⟩⟩
      | .ok .abstraction =>
          readTokens ending stop ⟨arena, .lam :: frames, depth + 1⟩ tokens
      | .ok .application => readTokens ending stop ⟨arena, .app :: frames, depth⟩ tokens
      | .ok (.leaf node) =>
          let (ref, arena) := arena.alloc node
          match Reading.complete arena depth ref frames with
          | .waiting reading => readTokens ending stop reading tokens
          | .root arena root => finish arena root ending stop tokens

/-- Read a text into an arena. -/
def parse (text : String) (arena : Program) : Parsed :=
  let found := scan text.toList
  readTokens found.ending found.stop (.start arena) found.tokens

end Source

end LambdaMachine
