/-!
# Assembling characters from bytes

An assembler takes numbers one at a time and gives a character whenever they complete
one in UTF-8. It refuses a number that is no byte, and a byte as soon as no shortest
form of a number below `0x200000` starts with what it has taken. Whether that number is
a character at all is asked of the last byte only. A refused number leaves the
assembler as it was.
-/

namespace LambdaMachine.Utf8

/-- What the next byte of a sequence must be. -/
inductive Expected where
  /-- The first byte of a character. -/
  | lead
  /-- The first continuation byte of three bytes. -/
  | threeFirst
  /-- The first continuation byte of four bytes. -/
  | fourFirst
  /-- The second continuation byte of four bytes. -/
  | fourSecond
  /-- The last continuation byte. -/
  | last
  deriving DecidableEq, Repr, Inhabited

/-- The part of a character taken so far. The bits that are still to come are zero. -/
structure Assembler where
  code : Nat := 0
  expected : Expected := .lead
  deriving DecidableEq, Repr, Inhabited

/-- What an assembler makes of a number. -/
inductive Reception where
  /-- The number cannot come next. -/
  | refused
  /-- The number was taken, and the character is not complete. -/
  | taken (state : Assembler)
  /-- The number completed a character. -/
  | completed (character : Char)
  deriving DecidableEq, Repr

namespace Assembler

/-- Whether a number is a continuation byte. -/
def isContinuation (number : Nat) : Bool :=
  0x80 ≤ number && number < 0xC0

/-- Complete a character. -/
def complete (code : Nat) : Reception :=
  if code.isValidChar then .completed (Char.ofNat code) else .refused

/-- Take the first byte of a character. The leads `0xC0` and `0xC1` have no shortest
form. -/
def takeLead (number : Nat) : Reception :=
  if number < 0x80 then complete number
  else if number < 0xC2 then .refused
  else if number < 0xE0 then .taken ⟨(number - 0xC0) * 0x40, .last⟩
  else if number < 0xF0 then .taken ⟨(number - 0xE0) * 0x1000, .threeFirst⟩
  else if number < 0xF8 then .taken ⟨(number - 0xF0) * 0x40000, .fourFirst⟩
  else .refused

/-- Take a continuation byte that is worth some power of two. What was taken then must
reach `least`, the first number that needs so many bytes. -/
def takeContinuation (code number weight least : Nat) (expected : Expected) : Reception :=
  let code := code + (number - 0x80) * weight
  if code < least then .refused else .taken ⟨code, expected⟩

/-- Take the next number. -/
def push (state : Assembler) (number : Nat) : Reception :=
  match state.expected with
  | .lead => takeLead number
  | expected =>
      if isContinuation number then
        match expected with
        | .threeFirst => takeContinuation state.code number 0x40 0x800 .last
        | .fourFirst => takeContinuation state.code number 0x1000 0x10000 .fourSecond
        | .fourSecond => takeContinuation state.code number 0x40 0 .last
        | _ => complete (state.code + (number - 0x80))
      else .refused

/-- The assembler after a number: as it was after a refused one, and between
characters after a completed one. -/
def after (state : Assembler) : Reception → Assembler
  | .refused => state
  | .taken next => next
  | .completed _ => {}

end Assembler

/-- The report of a refused number. -/
def invalidSequence : String := "invalid UTF-8 sequence"

end LambdaMachine.Utf8
