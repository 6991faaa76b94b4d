import LambdaMachine.Source.Position

/-!
# Syntax errors

Why and where a text was rejected, and the line of text that says so.
-/

namespace LambdaMachine

/-- Why a text was rejected. -/
inductive SyntaxError.Kind where
  /-- A run of dots is longer than the number of abstractions around it. -/
  | unboundArgument
  /-- A run of colons is too long to name a built-in. -/
  | unknownBuiltin
  /-- A character starts neither a token nor trivia. -/
  | unexpectedCharacter
  /-- A token follows a finished program. -/
  | unexpectedToken
  /-- The text ends before its program does. -/
  | unexpectedEnd
  deriving DecidableEq, Repr

/-- A rejection and the place of the offending token, character or end. -/
structure SyntaxError where
  kind : SyntaxError.Kind
  position : Position
  deriving DecidableEq, Repr

namespace SyntaxError

/-- The words for a kind of error. -/
def Kind.text : Kind → String
  | .unboundArgument => "no corresponding function to the argument"
  | .unknownBuiltin => "no corresponding builtin function"
  | .unexpectedCharacter => "unexpected character"
  | .unexpectedToken => "unexpected token"
  | .unexpectedEnd => "unexpected end of code"

/-- The report of an error, with its line and column. -/
def message (error : SyntaxError) : String :=
  "syntax error: " ++ error.kind.text ++ " (" ++ toString error.position.line ++ ", "
    ++ toString error.position.column ++ ")"

end SyntaxError

end LambdaMachine
