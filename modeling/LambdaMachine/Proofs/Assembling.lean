import LambdaMachine.Proofs.ShortForms

/-!
# Assemblers take UTF-8

Whatever is asked of an assembler, the numbers that it has taken are the UTF-8 forms of the
characters that it gave, and then the beginning of one more shortest form. Its state is the
value of that beginning (`Assembler.Holds`), from which it follows what it makes of the next
number (`Holds.answers`). `takes_exactly_utf8` says it of all requests in a row.
-/

namespace LambdaMachine.Utf8

/-! ### What may come next -/

/-- These numbers are the beginning of a shortest form, or a whole one. -/
def Begins (bytes : List Nat) : Prop :=
  ∃ code, code < 0x200000 ∧ bytes <+: shortForm code

/-- A number may come behind those taken: the beginning of a shortest form goes on with it, and
what is completed by it is a character. -/
structure Continues (taken : List Nat) (number : Nat) : Prop where
  isByte : number ≤ 0xFF
  begins : Begins (taken ++ [number])
  isChar : ∀ code, code < 0x200000 → taken ++ [number] = shortForm code → code.isValidChar

theorem begins_iff {bytes : List Nat} :
    Begins bytes ↔ ∃ form code, Form form code ∧ bytes <+: form := by
  constructor
  · rintro ⟨code, hcode, hstart⟩
    exact ⟨_, code, form_shortForm hcode, hstart⟩
  · rintro ⟨form, code, hform, hstart⟩
    exact ⟨code, hform.lt, hform.eq_shortForm ▸ hstart⟩

section Continues

variable {taken form : List Nat} {number code : Nat}

/-- The form of a character may be continued to its end. -/
theorem Form.continues (hform : Form form code) (hstart : taken ++ [number] <+: form)
    (hvalid : taken ++ [number] = form → code.isValidChar) : Continues taken number where
  isByte := hform.le_of_mem (hstart.subset (by simp))
  begins := begins_iff.mpr ⟨form, code, hform, hstart⟩
  isChar code' hcode' heq := by
    rw [heq] at hstart
    obtain rfl := (form_shortForm hcode').eq_of_isPrefix hform hstart
    exact hvalid (heq.trans hform.eq_shortForm.symm)

theorem Begins.isContinuation (hbegins : Begins (taken ++ [number])) (htaken : taken ≠ []) :
    Assembler.isContinuation number = true := by
  obtain ⟨form, code, hform, rest, rfl⟩ := begins_iff.mp hbegins
  refine hform.isContinuation_of_mem_tail ?_
  cases taken with
  | nil => exact absurd rfl htaken
  | cons first taken => simp

end Continues

namespace Assembler

/-- The state of an assembler that has taken these numbers of a character. -/
inductive Holds : Assembler → List Nat → Prop where
  | lead : Holds {} []
  | twoLast {a} (ha : 2 ≤ a) (ha' : a < 0x20) : Holds ⟨a * 0x40, .last⟩ [0xC0 + a]
  | threeFirst {a} (ha : a < 0x10) : Holds ⟨a * 0x1000, .threeFirst⟩ [0xE0 + a]
  | threeLast {a b} (ha : a < 0x10) (hb : b < 0x40) (hleast : 0x800 ≤ a * 0x1000 + b * 0x40) :
      Holds ⟨a * 0x1000 + b * 0x40, .last⟩ [0xE0 + a, 0x80 + b]
  | fourFirst {a} (ha : a < 8) : Holds ⟨a * 0x40000, .fourFirst⟩ [0xF0 + a]
  | fourSecond {a b} (ha : a < 8) (hb : b < 0x40) (hleast : 0x10000 ≤ a * 0x40000 + b * 0x1000) :
      Holds ⟨a * 0x40000 + b * 0x1000, .fourSecond⟩ [0xF0 + a, 0x80 + b]
  | fourLast {a b c} (ha : a < 8) (hb : b < 0x40) (hc : c < 0x40)
      (hleast : 0x10000 ≤ a * 0x40000 + b * 0x1000) :
      Holds ⟨a * 0x40000 + b * 0x1000 + c * 0x40, .last⟩ [0xF0 + a, 0x80 + b, 0x80 + c]

end Assembler

/-- What is made of a number that comes behind those taken. -/
inductive Reception.Answers (taken : List Nat) (number : Nat) : Reception → Prop where
  | refused (hnot : ¬ Continues taken number) : Answers taken number .refused
  | taken {state : Assembler} (hcontinues : Continues taken number)
      (hholds : state.Holds (taken ++ [number])) : Answers taken number (.taken state)
  | completed {character : Char} (hform : taken ++ [number] = shortForm character.toNat) :
      Answers taken number (.completed character)

namespace Assembler

variable {state : Assembler} {taken : List Nat} {number code : Nat}

theorem answers_complete (hform : Form (taken ++ [number]) code) :
    (complete code).Answers taken number := by
  unfold complete
  split
  next hvalid =>
      have htoNat : (Char.ofNat code).toNat = code := by rw [Char.ofNat, dif_pos hvalid]; rfl
      exact .completed (hform.eq_shortForm.trans (congrArg shortForm htoNat.symm))
  next hvalid =>
      exact .refused fun hcontinues =>
        hvalid (hcontinues.isChar code hform.lt hform.eq_shortForm)

/-- Nothing but a continuation byte may come behind the first byte. -/
theorem answers_of_not_continuation (htaken : taken ≠ []) (hnot : isContinuation number = false) :
    Reception.refused.Answers taken number := by
  refine .refused fun hcontinues => ?_
  rw [hcontinues.begins.isContinuation htaken] at hnot
  cases hnot

theorem exists_of_isContinuation (h : isContinuation number = true) :
    ∃ low, low < 0x40 ∧ number = 0x80 + low := by
  simp only [isContinuation, Bool.and_eq_true, decide_eq_true_eq] at h
  exact ⟨number - 0x80, by omega, by omega⟩

/-- A first byte is taken if a shortest form begins with it. -/
theorem answers_takeLead (number : Nat) : (takeLead number).Answers [] number := by
  have hrefused : (∀ form code, Form form code → ¬ [number] <+: form) →
      Reception.refused.Answers [] number := fun hnone => .refused fun hcontinues => by
    obtain ⟨form, code, hform, hstart⟩ := begins_iff.mp hcontinues.begins
    exact hnone form code hform hstart
  unfold takeLead
  split
  next h => exact answers_complete (.one h)
  split
  next h h' =>
      refine hrefused fun form code hform hstart => ?_
      cases hform <;> simp only [List.cons_prefix_cons] at hstart <;> omega
  split
  next h h' h'' =>
      obtain ⟨a, rfl⟩ : ∃ a, number = 0xC0 + a := ⟨number - 0xC0, by omega⟩
      have ha : 2 ≤ a := by omega
      have ha' : a < 0x20 := by omega
      rw [Nat.add_sub_cancel_left]
      have hform : Form [0xC0 + a, 0x80 + 0] _ := .two ha ha' (by omega)
      exact .taken (hform.continues ⟨_, rfl⟩ (by simp)) (.twoLast ha ha')
  split
  next h _ _ h' =>
      obtain ⟨a, rfl⟩ : ∃ a, number = 0xE0 + a := ⟨number - 0xE0, by omega⟩
      have ha : a < 0x10 := by omega
      rw [Nat.add_sub_cancel_left]
      -- The last of the forms that begin so is never too small.
      have hform : Form [0xE0 + a, 0x80 + 0x3F, 0x80 + 0] _ :=
        .three ha (by omega) (by omega) (by omega)
      exact .taken (hform.continues ⟨_, rfl⟩ (by simp)) (.threeFirst ha)
  split
  next h _ _ _ h' =>
      obtain ⟨a, rfl⟩ : ∃ a, number = 0xF0 + a := ⟨number - 0xF0, by omega⟩
      have ha : a < 8 := by omega
      rw [Nat.add_sub_cancel_left]
      have hform : Form [0xF0 + a, 0x80 + 0x3F, 0x80 + 0, 0x80 + 0] _ :=
        .four ha (by omega) (by omega) (by omega) (by omega)
      exact .taken (hform.continues ⟨_, rfl⟩ (by simp)) (.fourFirst ha)
  next h =>
      refine hrefused fun form code hform hstart => ?_
      cases hform <;> simp only [List.cons_prefix_cons] at hstart <;> omega

/-- The second byte of three is taken if the number will be large enough. -/
theorem answers_threeFirst {a : Nat} (ha : a < 0x10) {low : Nat} (hlow : low < 0x40) :
    (takeContinuation (a * 0x1000) (0x80 + low) 0x40 0x800 .last).Answers [0xE0 + a]
      (0x80 + low) := by
  simp only [takeContinuation, Nat.add_sub_cancel_left]
  split
  next hsmall =>
      refine .refused fun hcontinues => ?_
      obtain ⟨form, code, hform, hstart⟩ := begins_iff.mp hcontinues.begins
      cases hform <;> simp [List.cons_prefix_cons] at hstart <;> omega
  next hleast =>
      have hform : Form [0xE0 + a, 0x80 + low, 0x80 + 0] _ :=
        .three ha hlow (by omega) (by omega)
      exact .taken (hform.continues ⟨_, rfl⟩ (by simp)) (.threeLast ha hlow (by omega))

theorem answers_fourFirst {a : Nat} (ha : a < 8) {low : Nat} (hlow : low < 0x40) :
    (takeContinuation (a * 0x40000) (0x80 + low) 0x1000 0x10000 .fourSecond).Answers [0xF0 + a]
      (0x80 + low) := by
  simp only [takeContinuation, Nat.add_sub_cancel_left]
  split
  next hsmall =>
      refine .refused fun hcontinues => ?_
      obtain ⟨form, code, hform, hstart⟩ := begins_iff.mp hcontinues.begins
      cases hform <;> simp [List.cons_prefix_cons] at hstart <;> omega
  next hleast =>
      have hform : Form [0xF0 + a, 0x80 + low, 0x80 + 0, 0x80 + 0] _ :=
        .four ha hlow (by omega) (by omega) (by omega)
      exact .taken (hform.continues ⟨_, rfl⟩ (by simp)) (.fourSecond ha hlow (by omega))

/-- A number is received as it may come behind those taken. -/
theorem Holds.answers (h : state.Holds taken) (number : Nat) :
    (state.push number).Answers taken number := by
  cases hcontinuation : isContinuation number with
  | false =>
      cases h with
      | lead => exact answers_takeLead number
      | _ =>
          simp only [push, hcontinuation]
          exact answers_of_not_continuation (List.cons_ne_nil _ _) hcontinuation
  | true =>
      obtain ⟨low, hlow, rfl⟩ := exists_of_isContinuation hcontinuation
      cases h with
      | lead => exact answers_takeLead _
      | threeFirst ha =>
          simp only [push, hcontinuation, if_true]
          exact answers_threeFirst ha hlow
      | fourFirst ha =>
          simp only [push, hcontinuation, if_true]
          exact answers_fourFirst ha hlow
      | fourSecond ha hb hleast =>
          simp only [push, hcontinuation, if_true, takeContinuation, Nat.add_sub_cancel_left,
            Nat.not_lt_zero, if_false]
          have hform : Form [_, _, 0x80 + low, 0x80 + 0] _ := .four ha hb hlow (by omega) hleast
          exact .taken (hform.continues ⟨_, rfl⟩ (by simp)) (.fourLast ha hb hlow hleast)
      | twoLast ha ha' =>
          simp only [push, hcontinuation, if_true, Nat.add_sub_cancel_left]
          exact answers_complete (.two ha ha' hlow)
      | threeLast ha hb hleast =>
          simp only [push, hcontinuation, if_true, Nat.add_sub_cancel_left]
          exact answers_complete (.three ha hb hlow hleast)
      | fourLast ha hb hc hleast =>
          simp only [push, hcontinuation, if_true, Nat.add_sub_cancel_left]
          exact answers_complete (.four ha hb hc hlow hleast)

/-- What is taken of a character is never all of it. -/
theorem Holds.exists_form (h : state.Holds taken) :
    ∃ form code, Form form code ∧ taken <+: form ∧ taken ≠ form := by
  cases h with
  | lead => exact ⟨[0], 0, .one (by omega), List.nil_prefix, by simp⟩
  | @twoLast a ha ha' =>
      exact ⟨[0xC0 + a, 0x80 + 0], _, .two ha ha' (by omega), ⟨_, rfl⟩, by simp⟩
  | @threeFirst a ha =>
      exact ⟨[0xE0 + a, 0x80 + 0x3F, 0x80 + 0], _, .three ha (by omega) (by omega) (by omega),
        ⟨_, rfl⟩, by simp⟩
  | @threeLast a b ha hb hleast =>
      exact ⟨[0xE0 + a, 0x80 + b, 0x80 + 0], _, .three ha hb (by omega) hleast, ⟨_, rfl⟩, by simp⟩
  | @fourFirst a ha =>
      exact ⟨[0xF0 + a, 0x80 + 0x3F, 0x80 + 0, 0x80 + 0], _,
        .four ha (by omega) (by omega) (by omega) (by omega), ⟨_, rfl⟩, by simp⟩
  | @fourSecond a b ha hb hleast =>
      exact ⟨[0xF0 + a, 0x80 + b, 0x80 + 0, 0x80 + 0], _, .four ha hb (by omega) (by omega) hleast,
        ⟨_, rfl⟩, by simp⟩
  | @fourLast a b c ha hb hc hleast =>
      exact ⟨[0xF0 + a, 0x80 + b, 0x80 + c, 0x80 + 0], _, .four ha hb hc (by omega) hleast,
        ⟨_, rfl⟩, by simp⟩

theorem Holds.ne_shortForm (h : state.Holds taken) (hcode : code < 0x200000) :
    taken ≠ shortForm code := by
  rintro rfl
  obtain ⟨form, code', hform, hstart, hne⟩ := h.exists_form
  obtain rfl := (form_shortForm hcode).eq_of_isPrefix hform hstart
  exact hne hform.eq_shortForm.symm

theorem Holds.eq_nil_iff (h : state.Holds taken) : taken = [] ↔ state.expected = .lead := by
  cases h <;> simp

/-- Between characters, nothing is left of those before. -/
theorem Holds.eq_empty (h : state.Holds taken) (hlead : state.expected = .lead) : state = {} := by
  cases h with
  | lead => rfl
  | _ => cases hlead

end Assembler

namespace Reception.Answers

variable {reception : Reception} {taken : List Nat} {number : Nat} {character : Char}

theorem ne_refused_iff (h : reception.Answers taken number) :
    reception ≠ .refused ↔ Continues taken number := by
  cases h with
  | refused hnot => simpa using hnot
  | taken hcontinues hholds => simpa using hcontinues
  | @completed character hform =>
      simpa using
        (form_toNat character).continues (hform ▸ List.prefix_rfl) fun _ => character.valid

theorem eq_completed_iff (h : reception.Answers taken number) :
    reception = .completed character ↔ taken ++ [number] = shortForm character.toNat := by
  constructor
  · rintro rfl
    cases h with
    | completed hform => exact hform
  · intro hform
    cases h with
    | refused hnot =>
        exact absurd ((form_toNat character).continues (hform ▸ List.prefix_rfl)
          fun _ => character.valid) hnot
    | taken hcontinues hholds => exact absurd hform (hholds.ne_shortForm (form_toNat character).lt)
    | completed hform' => rw [eq_of_shortForm_eq (hform'.symm.trans hform)]

end Reception.Answers

/-! ### Requests in a row -/

/-- What may be asked of an assembler. -/
inductive Request where
  /-- Take a number. -/
  | push (number : Nat)
  /-- Forget what was taken of a character. -/
  | reset
  deriving DecidableEq, Repr

/-- The character that a number completed. -/
def Reception.character? : Reception → Option Char
  | .completed character => some character
  | _ => none

namespace Assembler

/-- The assembler after a request. -/
def next (state : Assembler) : Request → Assembler
  | .push number => state.after (state.push number)
  | .reset => {}

/-- What is made of the numbers among some requests, one after the other. -/
def receptions (state : Assembler) : List Request → List Reception
  | [] => []
  | .push number :: requests => state.push number :: receptions (state.next (.push number)) requests
  | .reset :: requests => receptions (state.next .reset) requests

theorem receptions_append (state : Assembler) (requests requests' : List Request) :
    state.receptions (requests ++ requests') =
      state.receptions requests ++ (requests.foldl next state).receptions requests' := by
  induction requests generalizing state with
  | nil => rfl
  | cons request requests ih =>
      cases request <;> simp [receptions, ih]

/-- The next number of a character's form is taken, and the last one completes the character. -/
theorem Holds.push_of_form {state : Assembler} {taken rest : List Nat} {number : Nat}
    {character : Char} (h : state.Holds taken)
    (hform : taken ++ number :: rest = shortForm character.toNat) :
    rest = [] ∧ state.push number = .completed character ∨
      rest ≠ [] ∧ ∃ next, state.push number = .taken next ∧ next.Holds (taken ++ [number]) := by
  rw [List.append_cons] at hform
  have hcontinues : Continues taken number :=
    (form_toNat character).continues ⟨rest, hform⟩ fun _ => character.valid
  have hanswers := h.answers number
  generalize state.push number = reception at hanswers ⊢
  cases hanswers with
  | refused hnot => exact absurd hcontinues hnot
  | taken _ hholds =>
      refine .inr ⟨?_, _, rfl, hholds⟩
      rintro rfl
      rw [List.append_nil] at hform
      exact hholds.ne_shortForm (form_toNat character).lt hform
  | @completed character' hform' =>
      -- No shortest form begins with another, so this one ends here.
      have hcode := (form_toNat character').eq_of_isPrefix (form_toNat character)
        ⟨rest, hform' ▸ hform⟩
      have hrest : rest = [] := by
        simpa [hform', hcode] using hform
      exact .inl ⟨hrest, congrArg _ (Char.toNat_inj.mp hcode)⟩

/-- The rest of a character's form is taken, and completes the character. -/
theorem Holds.takes {state : Assembler} {taken rest : List Nat} {character : Char}
    (h : state.Holds taken) (hform : taken ++ rest = shortForm character.toNat) :
    .refused ∉ state.receptions (rest.map .push) ∧ (rest.map .push).foldl next state = {} := by
  induction rest generalizing state taken with
  | nil =>
      rw [List.append_nil] at hform
      exact absurd hform (h.ne_shortForm (form_toNat character).lt)
  | cons number rest ih =>
      simp only [List.map_cons, receptions, List.foldl_cons, List.mem_cons, not_or, next]
      rcases h.push_of_form hform with ⟨rfl, hpush⟩ | ⟨_, after, hpush, hholds⟩
      · rw [hpush]
        exact ⟨⟨by simp, by simp [receptions]⟩, rfl⟩
      · rw [List.append_cons] at hform
        rw [hpush]
        exact ⟨⟨by simp, (ih hholds hform).1⟩, (ih hholds hform).2⟩

end Assembler

/-- What came of the requests since an assembler was last reset. -/
structure Record where
  state : Assembler := {}
  /-- The numbers that it took. -/
  taken : List Nat := []
  /-- The characters that it gave. -/
  given : List Char := []

namespace Record

/-- The record after one more request. -/
def perform (record : Record) : Request → Record
  | .reset => {}
  | .push number =>
      let reception := record.state.push number
      { state := record.state.after reception
        taken := if reception = .refused then record.taken else record.taken ++ [number]
        given := record.given ++ reception.character?.toList }

/-- The record of the requests to a new assembler. -/
def of (requests : List Request) : Record :=
  requests.foldl perform {}

/-- These numbers are what was taken of a character that is not yet complete. -/
structure Owes (record : Record) (pending : List Nat) : Prop where
  holds : record.state.Holds pending
  taken_eq : record.taken =
    (record.given.flatMap String.utf8EncodeChar).map UInt8.toNat ++ pending

namespace Owes

variable {record : Record} {pending : List Nat}

theorem perform (h : record.Owes pending) (request : Request) :
    ∃ pending', (record.perform request).Owes pending' := by
  cases request with
  | reset => exact ⟨[], .lead, rfl⟩
  | push number =>
      have hanswers := h.holds.answers number
      simp only [Record.perform]
      generalize record.state.push number = reception at hanswers ⊢
      cases hanswers with
      | refused hnot => exact ⟨pending, h.holds, by simp [h.taken_eq, Reception.character?]⟩
      | taken _ hholds => exact ⟨_, hholds, by simp [h.taken_eq, Reception.character?]⟩
      | completed hform =>
          rw [shortForm_toNat] at hform
          exact ⟨[], .lead, by simp [h.taken_eq, hform, Reception.character?]⟩

theorem foldl (h : record.Owes pending) (requests : List Request) :
    ∃ pending', (requests.foldl Record.perform record).Owes pending' := by
  induction requests generalizing record pending with
  | nil => exact ⟨pending, h⟩
  | cons request requests ih =>
      obtain ⟨pending', h'⟩ := h.perform request
      exact ih h'

end Owes

theorem exists_owes (requests : List Request) : ∃ pending, (of requests).Owes pending :=
  Owes.foldl ⟨.lead, rfl⟩ requests

theorem perform_state (record : Record) (request : Request) :
    (record.perform request).state = record.state.next request := by
  cases request <;> rfl

theorem foldl_state (record : Record) (requests : List Request) :
    (requests.foldl perform record).state = requests.foldl Assembler.next record.state := by
  induction requests generalizing record with
  | nil => rfl
  | cons request requests ih => rw [List.foldl_cons, ih, perform_state, List.foldl_cons]

/-- Numbers none of which is refused are all taken. -/
theorem foldl_taken (record : Record) (numbers : List Nat)
    (h : .refused ∉ record.state.receptions (numbers.map .push)) :
    ((numbers.map .push).foldl perform record).taken = record.taken ++ numbers := by
  induction numbers generalizing record with
  | nil => simp
  | cons number numbers ih =>
      simp only [List.map_cons, Assembler.receptions, List.mem_cons, not_or] at h
      have htaken : (record.perform (.push number)).taken = record.taken ++ [number] :=
        if_neg (Ne.symm h.1)
      rw [List.map_cons, List.foldl_cons, ih _ (by rw [perform_state]; exact h.2), htaken,
        List.append_assoc, List.singleton_append]

end Record

/-- The forms of characters are taken, and leave the assembler between characters. -/
theorem takes_characters (characters : List Char) :
    .refused ∉ Assembler.receptions {}
        (((characters.flatMap String.utf8EncodeChar).map UInt8.toNat).map .push) ∧
      (((characters.flatMap String.utf8EncodeChar).map UInt8.toNat).map .push).foldl
        Assembler.next {} = {} := by
  induction characters with
  | nil => simp [Assembler.receptions]
  | cons character characters ih =>
      have hfirst := Assembler.Holds.lead.takes (shortForm_toNat character).symm
      simp only [List.flatMap_cons, List.map_append, Assembler.receptions_append,
        List.foldl_append, List.mem_append, not_or, hfirst.2]
      exact ⟨⟨hfirst.1, ih.1⟩, ih.2⟩

/-- Bytes are all taken and leave the assembler between characters just if they are UTF-8. -/
theorem takes_iff_isValidUTF8 (bytes : List UInt8) :
    .refused ∉ Assembler.receptions {} ((bytes.map UInt8.toNat).map .push) ∧
        (Record.of ((bytes.map UInt8.toNat).map .push)).state.expected = .lead ↔
      bytes.toByteArray.IsValidUTF8 := by
  constructor
  · rintro ⟨htakes, hlead⟩
    obtain ⟨pending, hholds, htaken⟩ := Record.exists_owes ((bytes.map UInt8.toNat).map .push)
    rw [hholds.eq_nil_iff.mpr hlead, List.append_nil, Record.of, Record.foldl_taken _ _ htakes,
      List.nil_append] at htaken
    have hbytes := List.map_injective_iff.mpr (fun _ _ => UInt8.toNat_inj.mp) htaken
    exact .intro _ (congrArg List.toByteArray hbytes)
  · rintro ⟨characters, hbytes⟩
    obtain rfl := List.toByteArray_inj.mp hbytes
    obtain ⟨htakes, hstate⟩ := takes_characters characters
    exact ⟨htakes, by rw [Record.of, Record.foldl_state, hstate]⟩

/-- A refused number is one reception more, and the others are as they would be without it. -/
theorem receptions_refused {requests : List Request} {number : Nat}
    (h : (Record.of requests).state.push number = .refused) (later : List Request) :
    ∃ following,
      Assembler.receptions {} (requests ++ later) =
          Assembler.receptions {} requests ++ following ∧
        Assembler.receptions {} (requests ++ .push number :: later) =
          Assembler.receptions {} requests ++ .refused :: following := by
  rw [Record.of, Record.foldl_state] at h
  refine ⟨_, Assembler.receptions_append {} requests later, ?_⟩
  simp only [Assembler.receptions_append, Assembler.receptions, Assembler.next, h, Assembler.after]

/-- Whatever was asked of an assembler, it has taken the UTF-8 forms of the characters that it
gave and then the beginning of a shortest form, which is empty between characters. It takes the
numbers that may come next, and gives a character with the last number of its form. A refused
number has no influence on what comes later. So bytes are taken to the end of a character
exactly if they are UTF-8. -/
theorem takes_exactly_utf8 :
    (∀ requests : List Request, ∃ pending : List Nat,
      (Record.of requests).taken =
          ((Record.of requests).given.flatMap String.utf8EncodeChar).map UInt8.toNat ++ pending ∧
        (∃ code, code < 0x200000 ∧ pending <+: shortForm code ∧ pending ≠ shortForm code) ∧
        (pending = [] ↔ (Record.of requests).state.expected = .lead) ∧
        ∀ number,
          ((Record.of requests).state.push number ≠ .refused ↔ Continues pending number) ∧
          ∀ character, (Record.of requests).state.push number = .completed character ↔
            pending ++ [number] = shortForm character.toNat) ∧
    (∀ (requests : List Request) (number : Nat) (later : List Request),
      (Record.of requests).state.push number = .refused →
      ∃ following,
        Assembler.receptions {} (requests ++ later) =
            Assembler.receptions {} requests ++ following ∧
          Assembler.receptions {} (requests ++ .push number :: later) =
            Assembler.receptions {} requests ++ .refused :: following) ∧
    ∀ bytes : List UInt8,
      .refused ∉ Assembler.receptions {} ((bytes.map UInt8.toNat).map .push) ∧
          (Record.of ((bytes.map UInt8.toNat).map .push)).state.expected = .lead ↔
        bytes.toByteArray.IsValidUTF8 := by
  refine ⟨fun requests => ?_, fun requests number later h => receptions_refused h later,
    takes_iff_isValidUTF8⟩
  obtain ⟨pending, hholds, htaken⟩ := Record.exists_owes requests
  obtain ⟨form, code, hform, hstart, hne⟩ := hholds.exists_form
  rw [hform.eq_shortForm] at hstart hne
  exact ⟨pending, htaken, ⟨code, hform.lt, hstart, hne⟩, hholds.eq_nil_iff, fun number =>
    ⟨(hholds.answers number).ne_refused_iff, fun _ => (hholds.answers number).eq_completed_iff⟩⟩

/-- A letter does not go on with the form that `0xE2` begins, whose character then comes as if
the letter had not been there. -/
theorem letter_refused_within_euro :
    (Record.of [.push 0xE2]).state.push 0x41 = .refused ∧
      ∃ following,
        Assembler.receptions {} ([.push 0xE2] ++ [.push 0x82, .push 0xAC]) =
            Assembler.receptions {} [.push 0xE2] ++ following ∧
          Assembler.receptions {} ([.push 0xE2] ++ .push 0x41 :: [.push 0x82, .push 0xAC]) =
            Assembler.receptions {} [.push 0xE2] ++ .refused :: following :=
  ⟨by decide, takes_exactly_utf8.2.1 _ _ _ (by decide)⟩

end LambdaMachine.Utf8
