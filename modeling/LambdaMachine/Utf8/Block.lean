/-!
# Characters of a byte stream

A stream of bytes that may not be UTF-8 is cut into blocks. The first byte of a block
fixes its length, and each block gives one character: its own if the block is the
UTF-8 form of a character, and the replacement character otherwise. A block that the
end of the stream cuts off gives none.
-/

namespace LambdaMachine.Utf8

/-- The number of bytes that belong to a first byte, `none` where it stands alone
and is no character. -/
def followers? (lead : UInt8) : Option Nat :=
  if lead < 0x80 then some 0
  else if lead < 0xC0 then none
  else if lead < 0xE0 then some 1
  else if lead < 0xF0 then some 2
  else if lead < 0xF8 then some 3
  else none

/-- The character in place of bytes that are none. -/
def replacement : Char := '\uFFFD'

/-- The character of a block. -/
def blockChar (block : List UInt8) : Char :=
  (block.toByteArray.utf8DecodeChar? 0).getD replacement

/-- The character of the first block of a stream, and the rest of the stream. -/
def takeChar : List UInt8 → Option Char × List UInt8
  | [] => (none, [])
  | lead :: stream =>
      match followers? lead with
      | none => (some replacement, stream)
      | some count =>
          let tail := stream.take count
          if tail.length = count then (some (blockChar (lead :: tail)), stream.drop count)
          else (none, [])

end LambdaMachine.Utf8
