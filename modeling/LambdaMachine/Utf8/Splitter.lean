/-!
# Splitting characters into bytes

A splitter gives the UTF-8 bytes of characters one at a time, and asks for the next
character only when it owes no byte.
-/

namespace LambdaMachine.Utf8

/-- The bytes still owed of the last character. -/
structure Splitter where
  owed : List UInt8 := []
  deriving DecidableEq, Repr, Inhabited

namespace Splitter

/-- Start a character: its first byte, and the others owed. -/
def start (character : Char) : UInt8 × Splitter :=
  match String.utf8EncodeChar character with
  | lead :: owed => (lead, ⟨owed⟩)
  | [] => (0, {})

/-- The next owed byte. -/
def pending (splitter : Splitter) : Option UInt8 × Splitter :=
  match splitter.owed with
  | byte :: owed => (some byte, ⟨owed⟩)
  | [] => (none, {})

/-- The byte given first and the bytes owed then are those of the character. -/
theorem start_eq (character : Char) :
    (start character).1 :: (start character).2.owed = String.utf8EncodeChar character := by
  unfold start
  split
  next hbytes => exact hbytes.symm
  next hbytes => exact absurd hbytes String.utf8EncodeChar_ne_nil

end Splitter

end LambdaMachine.Utf8
