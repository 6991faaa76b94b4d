/-!
# The shortest form of a number

The bytes that UTF-8 gives to a number below `0x200000`, as many as the number needs.
For a character they are its UTF-8 bytes, which is `shortForm_toNat`.
-/

namespace LambdaMachine.Utf8

/-- The shortest form of a number below `0x200000`. -/
def shortForm (number : Nat) : List Nat :=
  if number < 0x80 then [number]
  else if number < 0x800 then [0xC0 + number / 0x40, 0x80 + number % 0x40]
  else if number < 0x10000 then
    [0xE0 + number / 0x1000, 0x80 + number / 0x40 % 0x40, 0x80 + number % 0x40]
  else
    [0xF0 + number / 0x40000, 0x80 + number / 0x1000 % 0x40, 0x80 + number / 0x40 % 0x40,
      0x80 + number % 0x40]

/-- The shortest form of a character is its UTF-8 form. -/
theorem shortForm_toNat (character : Char) :
    shortForm character.toNat = (String.utf8EncodeChar character).map UInt8.toNat := by
  have hvalid : character.toNat < 0x110000 := by
    have := character.valid
    simp only [UInt32.isValidChar, Nat.isValidChar] at this
    simp only [Char.toNat]
    omega
  unfold shortForm String.utf8EncodeChar
  rw [Char.toNat] at *
  generalize character.val.toNat = number at hvalid
  by_cases h1 : number < 0x80
  · have : number ≤ 0x7F := by omega
    simp [h1, this]
    omega
  by_cases h2 : number < 0x800
  · have h1' : ¬ number ≤ 0x7F := by omega
    have h2' : number ≤ 0x7FF := by omega
    simp [h1, h1', h2, h2']
    omega
  by_cases h3 : number < 0x10000
  · have h1' : ¬ number ≤ 0x7F := by omega
    have h2' : ¬ number ≤ 0x7FF := by omega
    have h3' : number ≤ 0xFFFF := by omega
    simp [h1, h1', h2, h2', h3, h3']
    omega
  · have h1' : ¬ number ≤ 0x7F := by omega
    have h2' : ¬ number ≤ 0x7FF := by omega
    have h3' : ¬ number ≤ 0xFFFF := by omega
    simp [h1, h1', h2, h2', h3, h3']
    omega

end LambdaMachine.Utf8
