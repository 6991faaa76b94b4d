import LambdaMachine.Utf8.Assembler
import LambdaMachine.Utf8.ShortForm
import Mathlib.Data.List.Basic

/-!
# Shortest forms byte by byte

The four lengths of shortest forms (`Form`), with the bits that each byte gives. No form begins
with another one, and only the first byte of a form is no continuation byte.
-/

namespace LambdaMachine.Utf8

/-- The shortest forms, and what they are the forms of. -/
inductive Form : List Nat → Nat → Prop where
  | one {a} (ha : a < 0x80) : Form [a] a
  | two {a b} (ha : 2 ≤ a) (ha' : a < 0x20) (hb : b < 0x40) :
      Form [0xC0 + a, 0x80 + b] (a * 0x40 + b)
  | three {a b c} (ha : a < 0x10) (hb : b < 0x40) (hc : c < 0x40)
      (hleast : 0x800 ≤ a * 0x1000 + b * 0x40) :
      Form [0xE0 + a, 0x80 + b, 0x80 + c] (a * 0x1000 + b * 0x40 + c)
  | four {a b c d} (ha : a < 8) (hb : b < 0x40) (hc : c < 0x40) (hd : d < 0x40)
      (hleast : 0x10000 ≤ a * 0x40000 + b * 0x1000) :
      Form [0xF0 + a, 0x80 + b, 0x80 + c, 0x80 + d] (a * 0x40000 + b * 0x1000 + c * 0x40 + d)

namespace Form

variable {bytes bytes' : List Nat} {code code' number : Nat}

theorem lt (h : Form bytes code) : code < 0x200000 := by
  cases h <;> omega

theorem eq_shortForm (h : Form bytes code) : bytes = shortForm code := by
  cases h with
  | one ha => simp [shortForm, ha]
  | @two a b ha ha' hb =>
      have h1 : ¬ a * 0x40 + b < 0x80 := by omega
      have h2 : a * 0x40 + b < 0x800 := by omega
      simp only [shortForm, if_neg h1, if_pos h2, List.cons.injEq, and_true]
      omega
  | @three a b c ha hb hc hleast =>
      have h1 : ¬ a * 0x1000 + b * 0x40 + c < 0x80 := by omega
      have h2 : ¬ a * 0x1000 + b * 0x40 + c < 0x800 := by omega
      have h3 : a * 0x1000 + b * 0x40 + c < 0x10000 := by omega
      simp only [shortForm, if_neg h1, if_neg h2, if_pos h3, List.cons.injEq, and_true]
      omega
  | @four a b c d ha hb hc hd hleast =>
      have h1 : ¬ a * 0x40000 + b * 0x1000 + c * 0x40 + d < 0x80 := by omega
      have h2 : ¬ a * 0x40000 + b * 0x1000 + c * 0x40 + d < 0x800 := by omega
      have h3 : ¬ a * 0x40000 + b * 0x1000 + c * 0x40 + d < 0x10000 := by omega
      simp only [shortForm, if_neg h1, if_neg h2, if_neg h3, List.cons.injEq, and_true]
      omega

/-- No shortest form begins with another one. -/
theorem eq_of_isPrefix (h : Form bytes code) (h' : Form bytes' code') (hstart : bytes <+: bytes') :
    code = code' := by
  cases h <;> cases h' <;> simp only [List.cons_prefix_cons] at hstart <;> omega

theorem le_of_mem (h : Form bytes code) (hmem : number ∈ bytes) : number ≤ 0xFF := by
  cases h <;> simp only [List.mem_cons, List.not_mem_nil, or_false] at hmem <;> omega

/-- Behind the first byte of a shortest form there are continuation bytes only. -/
theorem isContinuation_of_mem_tail (h : Form bytes code) (hmem : number ∈ bytes.tail) :
    Assembler.isContinuation number = true := by
  simp only [Assembler.isContinuation, Bool.and_eq_true, decide_eq_true_eq]
  cases h <;>
    simp only [List.tail_cons, List.mem_cons, List.not_mem_nil, or_false] at hmem <;> omega

end Form

theorem form_shortForm {number : Nat} (hnumber : number < 0x200000) :
    Form (shortForm number) number := by
  obtain ⟨bytes, hform⟩ : ∃ bytes, Form bytes number := by
    by_cases h1 : number < 0x80
    · exact ⟨_, .one h1⟩
    by_cases h2 : number < 0x800
    · obtain ⟨a, b, hb, rfl⟩ : ∃ a b, b < 0x40 ∧ number = a * 0x40 + b :=
        ⟨number / 0x40, number % 0x40, by omega, by omega⟩
      exact ⟨_, .two (by omega) (by omega) hb⟩
    by_cases h3 : number < 0x10000
    · obtain ⟨a, b, c, hb, hc, rfl⟩ : ∃ a b c, b < 0x40 ∧ c < 0x40 ∧
          number = a * 0x1000 + b * 0x40 + c :=
        ⟨number / 0x1000, number / 0x40 % 0x40, number % 0x40, by omega, by omega, by omega⟩
      exact ⟨_, .three (by omega) hb hc (by omega)⟩
    · obtain ⟨a, b, c, d, hb, hc, hd, rfl⟩ : ∃ a b c d, b < 0x40 ∧ c < 0x40 ∧ d < 0x40 ∧
          number = a * 0x40000 + b * 0x1000 + c * 0x40 + d :=
        ⟨number / 0x40000, number / 0x1000 % 0x40, number / 0x40 % 0x40, number % 0x40,
          by omega, by omega, by omega, by omega⟩
      exact ⟨_, .four (by omega) hb hc hd (by omega)⟩
  rwa [hform.eq_shortForm] at hform

/-- Every character has a shortest form. -/
theorem form_toNat (character : Char) : Form (shortForm character.toNat) character.toNat := by
  have hvalid := character.valid
  simp only [UInt32.isValidChar, Nat.isValidChar] at hvalid
  exact form_shortForm (by simp only [Char.toNat]; omega)

theorem eq_of_shortForm_eq {character character' : Char}
    (h : shortForm character.toNat = shortForm character'.toNat) : character = character' :=
  Char.toNat_inj.mp
    ((form_toNat character).eq_of_isPrefix (form_toNat character') (h ▸ List.prefix_rfl))

end LambdaMachine.Utf8
