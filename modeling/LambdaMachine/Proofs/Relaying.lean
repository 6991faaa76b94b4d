import LambdaMachine.Proofs.Assembling
import LambdaMachine.Proofs.Calls
import LambdaMachine.Utf8.Splitter

/-!
# Characters go in, bytes go over, characters come out

A splitter gives the bytes of the characters that it gets from a host, and an assembler
that takes these bytes gives the characters again. How far both have come is a `Relay`:
the characters that have come through, and then perhaps one whose bytes are only partly
given. A byte is either the first of a character that is got for it, or one that is owed
(`Relay.start`, `Relay.owed`); `deliver_relays` says it of all bytes in a row.

A splitter keeps the bytes that it owes. They can as well be computed from the code of
the character when they are asked for (`Shifter`).
-/

namespace LambdaMachine

namespace Utf8

/-! ### Bytes by shifts and masks -/

/-- The character last started, by its code, and how many of its bytes are owed. -/
structure Shifter where
  code : Nat := 0
  owed : Nat := 0

namespace Shifter

/-- Six bits of a code, marked as a continuation byte. -/
def continuation (code place : Nat) : UInt8 :=
  UInt8.ofNat ((code >>> (6 * place) &&& 0x3F) ||| 0x80)

/-- The next owed byte. -/
def pending (shifter : Shifter) : Option UInt8 × Shifter :=
  match shifter.owed with
  | 0 => (none, shifter)
  | owed + 1 => (some (continuation shifter.code owed), { shifter with owed })

/-- Start a character: its first byte, and how many are owed. -/
def start (character : Char) : UInt8 × Shifter :=
  let code := character.toNat
  if code &&& 0x1F0000 ≠ 0 then (UInt8.ofNat (code >>> 18 &&& 0x07 ||| 0xF0), ⟨code, 3⟩)
  else if code &&& 0xF800 ≠ 0 then (UInt8.ofNat (code >>> 12 &&& 0x0F ||| 0xE0), ⟨code, 2⟩)
  else if code &&& 0x780 ≠ 0 then (UInt8.ofNat (code >>> 6 &&& 0x1F ||| 0xC0), ⟨code, 1⟩)
  else (UInt8.ofNat code, ⟨code, 0⟩)

/-- The owed bytes of a code, the last of them in its lowest bits. -/
def rest (code : Nat) : Nat → List UInt8
  | 0 => []
  | owed + 1 => continuation code owed :: rest code owed

/-- The splitter that owes the same bytes. -/
def splitter (shifter : Shifter) : Splitter :=
  ⟨rest shifter.code shifter.owed⟩

theorem pending_splitter (shifter : Shifter) :
    shifter.splitter.pending = (shifter.pending.1, shifter.pending.2.splitter) := by
  obtain ⟨code, owed⟩ := shifter
  cases owed <;> rfl

/-- Bits under a mask are those of the shifted code, shifted back. -/
theorem and_mask_eq (code mask place : Nat) :
    code &&& (mask <<< place) = (code >>> place &&& mask) <<< place := by
  rw [Nat.shiftLeft_and_distrib]
  apply Nat.eq_of_testBit_eq
  intro i
  simp only [Nat.testBit_and, Nat.testBit_shiftLeft, Nat.testBit_shiftRight]
  by_cases hle : place ≤ i
  · simp [hle, Nat.add_sub_cancel' hle]
  · simp [hle]

/-- A mask of adjacent bits finds whether one of them is set. -/
theorem and_mask_eq_zero_iff (code width place : Nat) :
    code &&& ((1 <<< width - 1) <<< place) = 0 ↔ code / (1 <<< place) % (1 <<< width) = 0 := by
  rw [and_mask_eq, Nat.one_shiftLeft, Nat.one_shiftLeft, Nat.and_two_pow_sub_one_eq_mod,
    Nat.shiftLeft_eq, Nat.mul_eq_zero, Nat.shiftRight_eq_div_pow]
  exact or_iff_left (Nat.ne_of_gt (Nat.two_pow_pos place))

/-- Some bits of a code and a marker above them are added up. -/
theorem and_or_marker (code place width marker : Nat) :
    (code >>> place &&& 1 <<< width - 1) ||| marker <<< width =
      code / (1 <<< place) % (1 <<< width) + marker <<< width := by
  rw [Nat.one_shiftLeft, Nat.one_shiftLeft, ← Nat.shiftRight_eq_div_pow,
    Nat.and_two_pow_sub_one_eq_mod, Nat.shiftLeft_eq, Nat.mul_comm marker, Nat.or_comm]
  have hbits := Nat.mod_lt (code >>> place) (Nat.two_pow_pos width)
  rw [← Nat.two_pow_add_eq_or_of_lt hbits, Nat.add_comm]

theorem continuation_eq (code place : Nat) :
    continuation code place = UInt8.ofNat (code / (1 <<< (6 * place)) % 64 + 128) :=
  congrArg UInt8.ofNat (and_or_marker code (6 * place) 6 2)

/-- Shifts and masks give the bytes that a splitter gives. -/
theorem start_splitter (character : Char) :
    Splitter.start character = ((start character).1, (start character).2.splitter) := by
  have hvalid : character.toNat < 0x110000 := by
    have := character.valid
    simp only [UInt32.isValidChar, Nat.isValidChar] at this
    simp only [Char.toNat]
    omega
  simp only [Splitter.start, String.utf8EncodeChar, start, splitter]
  rw [Char.toNat] at *
  generalize character.val.toNat = code at *
  -- Which masks find a bit, and what the masked bits are, in terms of quotients.
  have hfour : code &&& 0x1F0000 = 0 ↔ code / 0x10000 % 0x20 = 0 := and_mask_eq_zero_iff code 5 16
  have hthree : code &&& 0xF800 = 0 ↔ code / 0x800 % 0x20 = 0 := and_mask_eq_zero_iff code 5 11
  have htwo : code &&& 0x780 = 0 ↔ code / 0x80 % 0x10 = 0 := and_mask_eq_zero_iff code 4 7
  have hlead₂ : code >>> 6 &&& 0x1F ||| 0xC0 = code / 64 % 32 + 192 := and_or_marker code 6 5 6
  have hlead₃ : code >>> 12 &&& 0x0F ||| 0xE0 = code / 4096 % 16 + 224 :=
    and_or_marker code 12 4 14
  have hlead₄ : code >>> 18 &&& 0x07 ||| 0xF0 = code / 262144 % 8 + 240 :=
    and_or_marker code 18 3 30
  have hrest : rest code 0 = [] ∧ rest code 1 = [UInt8.ofNat (code % 64 + 128)] ∧
      rest code 2 = [UInt8.ofNat (code / 64 % 64 + 128), UInt8.ofNat (code % 64 + 128)] ∧
      rest code 3 = [UInt8.ofNat (code / 4096 % 64 + 128), UInt8.ofNat (code / 64 % 64 + 128),
        UInt8.ofNat (code % 64 + 128)] := by
    simp [rest, continuation_eq]
  obtain ⟨hrest₀, hrest₁, hrest₂, hrest₃⟩ := hrest
  by_cases h1 : code ≤ 0x7F
  · simp only [h1, if_true, hfour.mpr (by omega), hthree.mpr (by omega), htwo.mpr (by omega),
      ne_eq, not_true_eq_false, if_false, hrest₀]
  by_cases h2 : code ≤ 0x7FF
  · have hset : code &&& 0x780 ≠ 0 := by
      rw [Ne, htwo]
      omega
    simp only [h1, h2, hset, if_true, if_false, hfour.mpr (by omega), hthree.mpr (by omega),
      ne_eq, not_true_eq_false, not_false_eq_true, hlead₂, hrest₁]
  by_cases h3 : code ≤ 0xFFFF
  · have hset : code &&& 0xF800 ≠ 0 := by
      rw [Ne, hthree]
      omega
    simp only [h1, h2, h3, hset, if_true, if_false, hfour.mpr (by omega),
      ne_eq, not_true_eq_false, not_false_eq_true, hlead₃, hrest₂]
  · have hset : code &&& 0x1F0000 ≠ 0 := by
      rw [Ne, hfour]
      omega
    simp only [h1, h2, h3, hset, if_false, ne_eq, not_false_eq_true, if_true, hlead₄, hrest₃]

end Shifter

/-! ### How far characters have come -/

/-- How far the characters given to a splitter have come, when the bytes that it has given are
taken by an assembler: those before have come through, and of the last one some bytes may still
be owed. -/
inductive Relay : Splitter → Assembler → (characters complete : List Char) → List UInt8 → Prop where
  | whole {complete} : Relay {} {} complete complete (complete.flatMap String.utf8EncodeChar)
  | within {complete character part owed assembler} (hpart : part ≠ []) (howed : owed ≠ [])
      (hform : part ++ owed = String.utf8EncodeChar character)
      (hholds : assembler.Holds (part.map UInt8.toNat)) :
      Relay ⟨owed⟩ assembler (complete ++ [character]) complete
        (complete.flatMap String.utf8EncodeChar ++ part)

namespace Relay

variable {splitter : Splitter} {assembler : Assembler} {characters complete : List Char}
  {bytes part owed : List UInt8} {byte : UInt8} {character : Char}

/-- The next byte of a character is taken, and the last one brings it through. -/
theorem next (hholds : assembler.Holds (part.map UInt8.toNat))
    (hform : part ++ byte :: owed = String.utf8EncodeChar character) (complete : List Char) :
    assembler.push byte.toNat ≠ .refused ∧
      Relay ⟨owed⟩ (assembler.after (assembler.push byte.toNat)) (complete ++ [character])
        (complete ++ (assembler.push byte.toNat).character?.toList)
        (complete.flatMap String.utf8EncodeChar ++ part ++ [byte]) := by
  have hshort : part.map UInt8.toNat ++ byte.toNat :: owed.map UInt8.toNat =
      shortForm character.toNat := by
    rw [shortForm_toNat, ← hform, List.map_append, List.map_cons]
  rcases hholds.push_of_form hshort with ⟨hnil, hpush⟩ | ⟨hmore, state, hpush, hholds'⟩
  · obtain rfl := List.map_eq_nil_iff.mp hnil
    have hwhole := @whole (complete ++ [character])
    rw [List.flatMap_append, List.flatMap_singleton, ← hform, ← List.append_assoc] at hwhole
    exact ⟨by simp [hpush], hpush ▸ hwhole⟩
  · have hwithin := @within complete character (part ++ [byte]) owed state (by simp)
      (fun hnil => hmore (by rw [hnil]; rfl)) (by rw [← hform, List.append_assoc]; rfl)
      (by rwa [List.map_append])
    rw [← List.append_assoc] at hwithin
    simp only [hpush, Assembler.after, Reception.character?, Option.toList_none, List.append_nil]
    exact ⟨by simp, hwithin⟩

/-- The first byte of a character is given where none is owed. -/
theorem start (h : Relay {} assembler characters complete bytes) (character : Char) :
    assembler.push (Splitter.start character).1.toNat ≠ .refused ∧
      Relay (Splitter.start character).2
        (assembler.after (assembler.push (Splitter.start character).1.toNat))
        (characters ++ [character])
        (complete ++ (assembler.push (Splitter.start character).1.toNat).character?.toList)
        (bytes ++ [(Splitter.start character).1]) := by
  cases h with
  | whole =>
      have hform : [] ++ (Splitter.start character).1 :: (Splitter.start character).2.owed =
          String.utf8EncodeChar character := Splitter.start_eq character
      have hnext := next .lead hform characters
      rwa [List.append_nil] at hnext
  | within _ howed _ _ => exact absurd rfl howed

/-- An owed byte is given. -/
theorem pending (h : Relay ⟨byte :: owed⟩ assembler characters complete bytes) :
    assembler.push byte.toNat ≠ .refused ∧
      Relay ⟨owed⟩ (assembler.after (assembler.push byte.toNat)) characters
        (complete ++ (assembler.push byte.toNat).character?.toList) (bytes ++ [byte]) := by
  cases h with
  | within _ _ hform hholds => exact next hholds hform _

/-- No byte is owed just if all bytes of the characters have been given. -/
theorem owed_eq_nil_iff (h : Relay splitter assembler characters complete bytes) :
    splitter.owed = [] ↔ bytes = characters.flatMap String.utf8EncodeChar := by
  cases h with
  | whole => simp
  | within _ howed hform _ => simp [← hform, howed]

/-- The bytes of the characters are given in order, and only those of the last one may be
incomplete. -/
theorem bytes_eq (h : Relay splitter assembler characters complete bytes) :
    bytes <+: characters.flatMap String.utf8EncodeChar ∧
      ∃ part, bytes = complete.flatMap String.utf8EncodeChar ++ part ∧
        (part = [] ∧ characters = complete ∨ ∃ character owed,
          characters = complete ++ [character] ∧ part ≠ [] ∧ owed ≠ [] ∧
            part ++ owed = String.utf8EncodeChar character) := by
  cases h with
  | whole => exact ⟨List.prefix_rfl, [], by simp, .inl ⟨rfl, rfl⟩⟩
  | @within complete character part owed _ hpart howed hform _ =>
      refine ⟨⟨owed, ?_⟩, part, rfl, .inr ⟨character, owed, rfl, hpart, howed, hform⟩⟩
      rw [List.flatMap_append, List.flatMap_singleton, ← hform, List.append_assoc]

end Relay

/-- A new assembler takes all these bytes, and gives these characters. -/
structure Taken (assembler : Assembler) (complete : List Char) (bytes : List UInt8) : Prop where
  accepted : .refused ∉ Assembler.receptions {} ((bytes.map UInt8.toNat).map .push)
  given_eq : (Assembler.receptions {} ((bytes.map UInt8.toNat).map .push)).filterMap
    Reception.character? = complete
  state_eq : ((bytes.map UInt8.toNat).map .push).foldl Assembler.next {} = assembler

theorem Taken.next {assembler : Assembler} {complete : List Char} {bytes : List UInt8}
    {byte : UInt8} (h : Taken assembler complete bytes)
    (hpush : assembler.push byte.toNat ≠ .refused) :
    Taken (assembler.after (assembler.push byte.toNat))
      (complete ++ (assembler.push byte.toNat).character?.toList) (bytes ++ [byte]) := by
  have hreceptions : Assembler.receptions {} (((bytes ++ [byte]).map UInt8.toNat).map .push) =
      Assembler.receptions {} ((bytes.map UInt8.toNat).map .push) ++
        [assembler.push byte.toNat] := by
    rw [List.map_append, List.map_append, Assembler.receptions_append, h.state_eq]
    rfl
  constructor
  · rw [hreceptions, List.mem_append, List.mem_singleton, not_or]
    exact ⟨h.accepted, Ne.symm hpush⟩
  · rw [hreceptions, List.filterMap_append, h.given_eq]
    cases hcharacter : (assembler.push byte.toNat).character? <;> simp [hcharacter]
  · rw [List.map_append, List.map_append, List.foldl_append, h.state_eq]
    rfl

/-- A splitter has given these bytes of these characters, and the bytes can be taken. -/
def Carries (splitter : Splitter) (characters : List Char) (bytes : List UInt8) : Prop :=
  ∃ assembler complete, Relay splitter assembler characters complete bytes ∧
    Taken assembler complete bytes

end Utf8

/-! ### Asking for bytes -/

/-- What came of asking for a byte: the calls of the host, and the byte if there was one. -/
structure Delivery where
  calls : List Call
  byte : Option UInt8
  deriving DecidableEq, Repr

namespace Delivery

/-- The characters that a host gave. -/
def characters (deliveries : List Delivery) : List Char :=
  (deliveries.flatMap calls).filterMap fun call => call.character?.join

/-- The bytes that were given. -/
def bytes (deliveries : List Delivery) : List UInt8 :=
  deliveries.filterMap byte

/-- A character was asked for, and there is a byte unless the input had ended. -/
def Fetches (delivery : Delivery) : Prop :=
  ∃ answer, delivery.calls = [.get answer] ∧ (delivery.byte = none ↔ answer = none)

/-- A byte was given, and the host was not asked. -/
def Continues (delivery : Delivery) : Prop :=
  delivery.calls = [] ∧ delivery.byte ≠ none

theorem characters_cons (delivery : Delivery) (deliveries : List Delivery) :
    characters (delivery :: deliveries) = characters [delivery] ++ characters deliveries := by
  simp [characters]

theorem bytes_cons (delivery : Delivery) (deliveries : List Delivery) :
    bytes (delivery :: deliveries) = bytes [delivery] ++ bytes deliveries := by
  rw [← List.singleton_append, bytes, List.filterMap_append]
  rfl

end Delivery

namespace Host

open Utf8 (Splitter Carries)

variable {σ : Type} {splitter : Splitter} {characters : List Char} {bytes : List UInt8}

/-- Ask for bytes one after the other, each time with a text that may be shown. -/
def deliver (host : Host σ) :
    List String → Splitter → σ → Except Fault (List Delivery × Splitter × σ)
  | [], splitter, world => return ([], splitter, world)
  | text :: texts, splitter, world => do
      let (byte, splitter, world, calls) ←
        host.noting.nextByte (fun _ => .ok text) splitter (world, [])
      let (deliveries, splitter, world) ← host.deliver texts splitter world
      return (⟨calls, byte⟩ :: deliveries, splitter, world)

theorem noting_nextChar (host : Host σ) (text : String) (world : σ) :
    ∃ shown, host.noting.nextChar (fun _ => .ok text) (world, []) =
      .ok ((host.get shown world).1, (host.get shown world).2,
        [.get (host.get shown world).1]) := by
  cases hshown : host.shows world with
  | true =>
      refine ⟨some text, ?_⟩
      simp [nextChar, noting, hshown, bind, Except.bind, pure, Except.pure]
  | false =>
      refine ⟨none, ?_⟩
      simp [nextChar, noting, hshown, pure, Except.pure]

/-- One byte: the host is asked for a character just if all bytes of the characters so far have
been given. -/
theorem exists_nextByte (h : Carries splitter characters bytes) (host : Host σ) (text : String)
    (world : σ) :
    ∃ delivery splitter' world',
      host.noting.nextByte (fun _ => .ok text) splitter (world, []) =
        .ok (delivery.byte, splitter', world', delivery.calls) ∧
      (if bytes = characters.flatMap String.utf8EncodeChar then delivery.Fetches
        else delivery.Continues) ∧
      Carries splitter' (characters ++ Delivery.characters [delivery])
        (bytes ++ Delivery.bytes [delivery]) := by
  obtain ⟨assembler, complete, hrelay, htaken⟩ := h
  obtain ⟨owed⟩ := splitter
  cases owed with
  | cons byte owed =>
      have hnot : bytes ≠ characters.flatMap String.utf8EncodeChar := by
        rw [Ne, ← hrelay.owed_eq_nil_iff]
        simp
      obtain ⟨hpush, hrelay'⟩ := hrelay.pending
      refine ⟨⟨[], some byte⟩, ⟨owed⟩, world, rfl, ?_, ?_⟩
      · rw [if_neg hnot]
        exact ⟨rfl, by simp⟩
      · exact ⟨_, _, by
          simpa [Delivery.characters, Delivery.bytes] using hrelay', htaken.next hpush⟩
  | nil =>
      have hwhole : bytes = characters.flatMap String.utf8EncodeChar :=
        hrelay.owed_eq_nil_iff.mp rfl
      obtain ⟨shown, hchar⟩ := host.noting_nextChar text world
      simp only [if_pos hwhole]
      cases hget : (host.get shown world).1 with
      | none =>
          rw [hget] at hchar
          refine ⟨⟨[.get none], none⟩, {}, (host.get shown world).2, ?_, ⟨none, rfl, by simp⟩, ?_⟩
          · simp only [nextByte, Splitter.pending, hchar, bind, Except.bind, pure, Except.pure]
          · exact ⟨assembler, complete, by
              simpa [Delivery.characters, Delivery.bytes, Call.character?] using hrelay, by
              simpa [Delivery.bytes] using htaken⟩
      | some character =>
          rw [hget] at hchar
          obtain ⟨hpush, hrelay'⟩ := hrelay.start character
          refine ⟨⟨[.get (some character)], some (Splitter.start character).1⟩,
            (Splitter.start character).2, (host.get shown world).2, ?_,
            ⟨some character, rfl, by simp⟩, _, _, hrelay', htaken.next hpush⟩
          simp only [nextByte, Splitter.pending, hchar, bind, Except.bind, pure, Except.pure]

/-- All bytes in a row, from any point on. -/
theorem exists_deliver (h : Carries splitter characters bytes) (host : Host σ) (texts : List String)
    (world : σ) :
    ∃ deliveries splitter' world',
      host.deliver texts splitter world = .ok (deliveries, splitter', world') ∧
      deliveries.length = texts.length ∧
      Carries splitter' (characters ++ Delivery.characters deliveries)
        (bytes ++ Delivery.bytes deliveries) ∧
      ∀ before delivery after, deliveries = before ++ delivery :: after →
        if bytes ++ Delivery.bytes before =
            (characters ++ Delivery.characters before).flatMap String.utf8EncodeChar
          then delivery.Fetches else delivery.Continues := by
  induction texts generalizing splitter characters bytes world with
  | nil =>
      refine ⟨[], splitter, world, rfl, rfl, ?_, by simp⟩
      simpa [Delivery.characters, Delivery.bytes] using h
  | cons text texts ih =>
      obtain ⟨delivery, splitter₁, world₁, hnext, hfits, hcarries⟩ :=
        host.exists_nextByte h text world
      obtain ⟨deliveries, splitter', world', hdeliver, hlength, hcarries', hall⟩ :=
        ih hcarries world₁
      refine ⟨delivery :: deliveries, splitter', world', ?_, by simp [hlength], ?_, ?_⟩
      · simp only [deliver, hnext, hdeliver, bind, Except.bind, pure, Except.pure]
      · rwa [Delivery.characters_cons, Delivery.bytes_cons, ← List.append_assoc,
          ← List.append_assoc]
      · intro before delivery' after heq
        cases before with
        | nil =>
            obtain ⟨rfl, rfl⟩ := List.cons.inj heq
            simpa [Delivery.characters, Delivery.bytes] using hfits
        | cons first before =>
            obtain ⟨rfl, rfl⟩ := List.cons.inj heq
            rw [Delivery.characters_cons, Delivery.bytes_cons, ← List.append_assoc,
              ← List.append_assoc]
            exact hall before delivery' after rfl

/-- However often a new splitter is asked for a byte, and whatever the host answers, also if its
input ends and goes on again: the bytes given are the UTF-8 forms of the characters got, in order,
and only that of the last one may be incomplete. A character is asked for just if all bytes of
those before have been given, and there is no byte only where none was got. A new assembler takes
all these bytes, and gives the characters whose forms are complete. The bytes are those that
shifting and masking the code of a character gives. -/
theorem deliver_relays (host : Host σ) (texts : List String) (world : σ) :
    (∃ deliveries splitter world',
      host.deliver texts {} world = .ok (deliveries, splitter, world') ∧
      deliveries.length = texts.length ∧
      Delivery.bytes deliveries <+:
        (Delivery.characters deliveries).flatMap String.utf8EncodeChar ∧
      (∃ complete part,
        Delivery.bytes deliveries = complete.flatMap String.utf8EncodeChar ++ part ∧
        (part = [] ∧ Delivery.characters deliveries = complete ∨ ∃ character owed,
          Delivery.characters deliveries = complete ++ [character] ∧ part ≠ [] ∧ owed ≠ [] ∧
            part ++ owed = String.utf8EncodeChar character) ∧
        .refused ∉ Utf8.Assembler.receptions {}
          (((Delivery.bytes deliveries).map UInt8.toNat).map .push) ∧
        (Utf8.Assembler.receptions {}
          (((Delivery.bytes deliveries).map UInt8.toNat).map .push)).filterMap
            Utf8.Reception.character? = complete) ∧
      ∀ before delivery after, deliveries = before ++ delivery :: after →
        if Delivery.bytes before = (Delivery.characters before).flatMap String.utf8EncodeChar
          then delivery.Fetches else delivery.Continues) ∧
    (∀ character, Splitter.start character =
      ((Utf8.Shifter.start character).1, (Utf8.Shifter.start character).2.splitter)) ∧
    ∀ shifter : Utf8.Shifter,
      shifter.splitter.pending = (shifter.pending.1, shifter.pending.2.splitter) := by
  refine ⟨?_, Utf8.Shifter.start_splitter, Utf8.Shifter.pending_splitter⟩
  have hnew : Carries {} [] [] := ⟨{}, [], .whole, by simp [Utf8.Assembler.receptions], rfl, rfl⟩
  obtain ⟨deliveries, splitter, world', hdeliver, hlength, hcarries, hall⟩ :=
    host.exists_deliver hnew texts world
  obtain ⟨assembler, complete, hrelay, htaken⟩ := hcarries
  obtain ⟨hbegins, part, hbytes, hpart⟩ := hrelay.bytes_eq
  exact ⟨deliveries, splitter, world', hdeliver, hlength, hbegins,
    ⟨complete, part, hbytes, hpart, htaken.accepted, htaken.given_eq⟩, hall⟩

/-- The input ends, goes on with one character and ends again. -/
example :
    ((Answers.host ⟨fun i => if i = 1 then some '€' else none, fun _ => 0⟩).deliver
      ["", "", "", "", ""] {} []).map (fun outcome => outcome.1) =
        .ok [⟨[.get none], none⟩, ⟨[.get (some '€')], some 0xE2⟩, ⟨[], some 0x82⟩,
          ⟨[], some 0xAC⟩, ⟨[.get none], none⟩] := by
  decide

end Host

end LambdaMachine
