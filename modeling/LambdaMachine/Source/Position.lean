/-!
# Positions in a source text

A position counts the bytes of the text before it, and says where it stands in the
lines of the text. Columns count bytes as well.
-/

namespace LambdaMachine

/-- A place in a text: lines and columns start at one, the offset at zero. -/
structure Position where
  offset : Nat
  line : Nat
  column : Nat
  deriving DecidableEq, Repr, Inhabited

namespace Position

/-- The start of a text. -/
def start : Position := ⟨0, 1, 1⟩

/-- The position some bytes further in the same line. -/
def advance (position : Position) (bytes : Nat) : Position :=
  { position with offset := position.offset + bytes, column := position.column + bytes }

/-- The start of the next line, after a line break of some bytes. -/
def newline (position : Position) (bytes : Nat) : Position :=
  ⟨position.offset + bytes, position.line + 1, 1⟩

end Position

end LambdaMachine
