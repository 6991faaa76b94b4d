import LambdaMachine.Host.Console
import LambdaMachine.Proofs.ShortForms
import Mathlib.Data.List.Forall2

/-!
# The blocks of a byte stream

Every stream of bytes is cut into blocks in one way only, and what is left behind the last block
is a beginning of one (`CutsInto`). A console gives the character of one block for each call, in
their order, and none when no block is left (`Console.gets_eq`). The UTF-8 forms of characters are
blocks, so a text at the beginning of a stream is given back as it is, whatever follows it.
-/

namespace LambdaMachine.Utf8

/-- The length of the blocks with this first byte. -/
def blockLength (lead : UInt8) : Nat :=
  if lead < 0xC0 then 1
  else if lead < 0xE0 then 2
  else if lead < 0xF0 then 3
  else if lead < 0xF8 then 4
  else 1

theorem blockLength_eq (lead : UInt8) : blockLength lead = (followers? lead).getD 0 + 1 := by
  unfold blockLength followers?
  by_cases h : lead < 0x80
  · have h' : lead < 0xC0 := UInt8.lt_trans h (by decide)
    simp [h, h']
  · split_ifs <;> rfl

/-- As many bytes as the first of them says. -/
def IsBlock (bytes : List UInt8) : Prop :=
  ∃ lead ∈ bytes.head?, bytes.length = blockLength lead

/-- Fewer bytes than the first of them says, if there is one. -/
def CutOff (bytes : List UInt8) : Prop :=
  ∀ lead ∈ bytes.head?, bytes.length < blockLength lead

/-- A stream cut into blocks, one behind the other, and a rest that is no block. -/
structure CutsInto (stream : List UInt8) (blocks : List (List UInt8)) (rest : List UInt8) :
    Prop where
  isBlock : ∀ block ∈ blocks, IsBlock block
  cutOff : CutOff rest
  joined : stream = blocks.flatten ++ rest

/-- The character that a block stands for: the one with this UTF-8 form, or else the replacement
character. -/
def StandsFor (block : List UInt8) (character : Char) : Prop :=
  block = String.utf8EncodeChar character ∨
    (∀ other, block ≠ String.utf8EncodeChar other) ∧ character = replacement

variable {stream block more rest : List UInt8} {blocks : List (List UInt8)}

/-! ### The forms of characters -/

/-- The first byte of a character says how many follow. -/
theorem followers?_of_utf8EncodeChar {character : Char} {lead : UInt8} {tail : List UInt8}
    (h : String.utf8EncodeChar character = lead :: tail) : followers? lead = some tail.length := by
  have hform := form_toNat character
  rw [shortForm_toNat, h, List.map_cons] at hform
  rw [← tail.length_map UInt8.toNat]
  simp only [followers?, UInt8.lt_iff_toNat_lt, UInt8.reduceToNat]
  generalize lead.toNat = number, tail.map UInt8.toNat = followers, character.toNat = code at hform
  cases hform <;> split_ifs <;> first | rfl | omega

theorem isBlock_utf8EncodeChar (character : Char) : IsBlock (String.utf8EncodeChar character) := by
  cases h : String.utf8EncodeChar character with
  | nil => exact absurd h String.utf8EncodeChar_ne_nil
  | cons lead tail =>
      refine ⟨lead, rfl, ?_⟩
      rw [blockLength_eq, followers?_of_utf8EncodeChar h, Option.getD_some, List.length_cons]

@[simp]
theorem blockChar_utf8EncodeChar (character : Char) :
    blockChar (String.utf8EncodeChar character) = character := by
  have h := ByteArray.utf8DecodeChar?_utf8EncodeChar_append (b := [].toByteArray) (c := character)
  rw [← List.toByteArray_append, List.append_nil] at h
  rw [blockChar, h, Option.getD_some]

theorem map_blockChar_text (text : List Char) (blocks : List (List UInt8)) :
    (text.map String.utf8EncodeChar ++ blocks).map blockChar = text ++ blocks.map blockChar := by
  simp [Function.comp_def]

/-- A stream begins with one block only. -/
theorem IsBlock.eq_of_append {other left : List UInt8} (h : IsBlock block) (h' : IsBlock other)
    (heq : block ++ left = other ++ more) : block = other ∧ left = more := by
  obtain ⟨lead, hlead, hlength⟩ := h
  obtain ⟨lead', hlead', hlength'⟩ := h'
  have hhead : some lead = some lead' :=
    calc some lead = (block ++ left).head? := (List.mem_head?_append_of_mem_head? hlead).symm
      _ = (other ++ more).head? := by rw [heq]
      _ = some lead' := List.mem_head?_append_of_mem_head? hlead'
  cases hhead
  exact List.append_inj heq (hlength.trans hlength'.symm)

/-- A block that begins with the form of a character is that form. -/
theorem IsBlock.eq_utf8EncodeChar {character : Char} (h : IsBlock block)
    (hdecode : block.toByteArray.utf8DecodeChar? 0 = some character) :
    block = String.utf8EncodeChar character := by
  obtain ⟨left, hleft⟩ := ByteArray.exists_of_utf8DecodeChar?_eq_some hdecode
  obtain ⟨left, rfl⟩ : ∃ bytes : List UInt8, left = bytes.toByteArray :=
    ⟨left.data.toList, ByteArray.ext (by simp)⟩
  rw [← List.toByteArray_append, List.toByteArray_inj] at hleft
  have heq : block ++ [] = String.utf8EncodeChar character ++ left := by rwa [List.append_nil]
  exact (h.eq_of_append (isBlock_utf8EncodeChar character) heq).1

/-- The character in place of a block is the one that the block stands for. -/
theorem IsBlock.standsFor_blockChar (h : IsBlock block) : StandsFor block (blockChar block) := by
  cases hdecode : block.toByteArray.utf8DecodeChar? 0 with
  | some character =>
      have hblock := h.eq_utf8EncodeChar hdecode
      rw [hblock, blockChar_utf8EncodeChar]
      exact .inl rfl
  | none =>
      have hchar : blockChar block = replacement := by rw [blockChar, hdecode, Option.getD_none]
      by_cases hform : ∃ character, block = String.utf8EncodeChar character
      · obtain ⟨character, rfl⟩ := hform
        exact .inl (by rw [blockChar_utf8EncodeChar])
      · exact .inr ⟨not_exists.mp hform, hchar⟩

/-! ### Cutting a stream -/

/-- A block that stands at the beginning of a stream is taken off it. -/
theorem IsBlock.takeChar_append (h : IsBlock block) (stream : List UInt8) :
    takeChar (block ++ stream) = (some (blockChar block), stream) := by
  obtain ⟨lead, hlead, hlength⟩ := id h
  obtain ⟨tail, rfl⟩ : ∃ tail, block = lead :: tail :=
    ⟨block.tail, (List.cons_head?_tail hlead).symm⟩
  rw [blockLength_eq, List.length_cons] at hlength
  have htail : tail.length = (followers? lead).getD 0 := Nat.succ.inj hlength
  rw [List.cons_append, takeChar]
  cases hfollowers : followers? lead with
  | some count =>
      rw [hfollowers, Option.getD_some] at htail
      subst htail
      simp
  | none =>
      -- a byte that stands alone is the form of no character
      rw [hfollowers, Option.getD_none] at htail
      cases List.eq_nil_of_length_eq_zero htail
      obtain hform | ⟨_, hchar⟩ := h.standsFor_blockChar
      · rw [followers?_of_utf8EncodeChar hform.symm] at hfollowers
        cases hfollowers
      · rw [hchar, List.nil_append]

-- A lead that no shortest form has takes the byte behind it all the same.
example : takeChar [0xC0, 0x80, 0x41] = (some replacement, [0x41]) := by decide

/-- A block that the end of the stream cuts off is given up. -/
theorem CutOff.takeChar (h : CutOff stream) : takeChar stream = (none, []) := by
  cases stream with
  | nil => rfl
  | cons lead stream =>
      have hshort := h lead rfl
      rw [blockLength_eq, List.length_cons, Nat.add_lt_add_iff_right] at hshort
      rw [Utf8.takeChar]
      cases hfollowers : followers? lead with
      | none =>
          rw [hfollowers] at hshort
          exact absurd hshort (Nat.not_lt_zero _)
      | some count =>
          rw [hfollowers, Option.getD_some] at hshort
          have hlength : ¬ (stream.take count).length = count := by
            rw [List.length_take]
            omega
          dsimp only
          rw [if_neg hlength]

/-- A stream that is not cut off begins with a block. -/
theorem exists_isBlock (h : ¬ CutOff stream) :
    ∃ block rest, IsBlock block ∧ stream = block ++ rest := by
  simp only [CutOff, not_forall, Nat.not_lt] at h
  obtain ⟨lead, hlead, hlength⟩ := h
  refine ⟨stream.take (blockLength lead), stream.drop (blockLength lead), ⟨lead, ?_, ?_⟩,
    (List.take_append_drop ..).symm⟩
  · have hpositive : blockLength lead ≠ 0 := by
      rw [blockLength_eq]
      omega
    rw [List.head?_take, if_neg hpositive]
    exact hlead
  · rw [List.length_take, Nat.min_eq_left hlength]

theorem IsBlock.length_pos (h : IsBlock block) : 0 < block.length := by
  obtain ⟨lead, -, hlength⟩ := h
  rw [hlength, blockLength_eq]
  omega

/-- No block stands at the beginning of bytes that are cut off. -/
theorem IsBlock.not_cutOff (h : IsBlock block) : ¬ CutOff (block ++ rest) := by
  obtain ⟨lead, hlead, hlength⟩ := h
  intro hcutOff
  have hshort := hcutOff lead (List.mem_head?_append_of_mem_head? hlead)
  rw [List.length_append] at hshort
  omega

namespace CutsInto

theorem nil (h : CutOff rest) : CutsInto rest [] rest :=
  ⟨List.forall_mem_nil _, h, rfl⟩

theorem empty : CutsInto [] [] [] :=
  .nil nofun

theorem cons (hblock : IsBlock block) (h : CutsInto stream blocks rest) :
    CutsInto (block ++ stream) (block :: blocks) rest :=
  ⟨List.forall_mem_cons.mpr ⟨hblock, h.isBlock⟩, h.cutOff, by
    rw [h.joined, List.flatten_cons, List.append_assoc]⟩

theorem tail (h : CutsInto stream (block :: blocks) rest) :
    CutsInto (blocks.flatten ++ rest) blocks rest :=
  ⟨fun other hother => h.isBlock other (List.mem_cons_of_mem _ hother), h.cutOff, rfl⟩

theorem joined_cons (h : CutsInto stream (block :: blocks) rest) :
    stream = block ++ (blocks.flatten ++ rest) := by
  rw [h.joined, List.flatten_cons, List.append_assoc]

theorem takeChar_cons (h : CutsInto stream (block :: blocks) rest) :
    takeChar stream = (some (blockChar block), blocks.flatten ++ rest) := by
  rw [h.joined_cons]
  exact (h.isBlock block List.mem_cons_self).takeChar_append _

theorem takeChar_nil (h : CutsInto stream [] rest) : takeChar stream = (none, []) := by
  rw [show stream = rest from h.joined]
  exact h.cutOff.takeChar

end CutsInto

theorem exists_cutsInto (stream : List UInt8) : ∃ blocks rest, CutsInto stream blocks rest := by
  induction hlength : stream.length using Nat.strongRecOn generalizing stream with
  | ind length ih =>
      by_cases hcutOff : CutOff stream
      · exact ⟨[], stream, .nil hcutOff⟩
      · obtain ⟨block, rest, hblock, rfl⟩ := exists_isBlock hcutOff
        have hshorter : rest.length < length := by
          have := hblock.length_pos
          rw [List.length_append] at hlength
          omega
        obtain ⟨blocks, left, hleft⟩ := ih _ hshorter rest rfl
        exact ⟨block :: blocks, left, hleft.cons hblock⟩

/-- A stream is cut in one way only. -/
theorem CutsInto.unique {blocks' : List (List UInt8)} {rest' : List UInt8}
    (h : CutsInto stream blocks rest) (h' : CutsInto stream blocks' rest') :
    blocks' = blocks ∧ rest' = rest := by
  induction blocks generalizing stream blocks' with
  | nil =>
      have hstream : stream = rest := h.joined
      cases blocks' with
      | nil => exact ⟨rfl, h'.joined.symm.trans hstream⟩
      | cons block blocks' =>
          have hblock := h'.isBlock block List.mem_cons_self
          have hrest := h.cutOff
          rw [← hstream, h'.joined_cons] at hrest
          exact absurd hrest hblock.not_cutOff
  | cons block blocks ih =>
      have hblock := h.isBlock block List.mem_cons_self
      cases blocks' with
      | nil =>
          have hrest := h'.cutOff
          rw [← show stream = rest' from h'.joined, h.joined_cons] at hrest
          exact absurd hrest hblock.not_cutOff
      | cons block' blocks' =>
          obtain ⟨rfl, hmore⟩ := hblock.eq_of_append (h'.isBlock block' List.mem_cons_self)
            (h.joined_cons.symm.trans h'.joined_cons)
          have htail := h'.tail
          rw [← hmore] at htail
          obtain ⟨rfl, rfl⟩ := ih h.tail htail
          exact ⟨rfl, rfl⟩

/-- The forms of the characters of a text are blocks of a stream that begins with it. -/
theorem CutsInto.text (h : CutsInto stream blocks rest) (text : List Char) :
    CutsInto (text.flatMap String.utf8EncodeChar ++ stream)
      (text.map String.utf8EncodeChar ++ blocks) rest := by
  induction text with
  | nil => exact h
  | cons character text ih =>
      rw [List.flatMap_cons, List.append_assoc]
      exact ih.cons (isBlock_utf8EncodeChar character)

end LambdaMachine.Utf8

namespace LambdaMachine

/-- The answers to calls for a character, one after the other. -/
def Host.gets {σ : Type} (host : Host σ) : List (Option String) → σ → List (Option Char) × σ
  | [], world => ([], world)
  | text :: texts, world =>
      let (answer, world) := host.get text world
      let (answers, world) := host.gets texts world
      (answer :: answers, world)

namespace Console

open Utf8 (CutsInto StandsFor blockChar)

variable {streams : Streams} {blocks : List (List UInt8)} {rest : List UInt8}

/-- The bytes behind as many blocks as there were calls. There are none after a call that found
no block, for it gives up the rest. -/
def leftBehind (calls : Nat) (blocks : List (List UInt8)) (rest : List UInt8) : List UInt8 :=
  if calls ≤ blocks.length then (blocks.drop calls).flatten ++ rest else []

theorem get_block {block : List UInt8} (h : CutsInto streams.input (block :: blocks) rest)
    (text : Option String) :
    host.get text streams =
      (some (blockChar block), { streams with input := blocks.flatten ++ rest }) := by
  simp only [host, Streams.get, h.takeChar_cons]

theorem get_rest (h : CutsInto streams.input [] rest) (text : Option String) :
    host.get text streams = (none, { streams with input := [] }) := by
  simp only [host, Streams.get, h.takeChar_nil]

/-- One call for each block gives its character, and the calls after them give none. -/
theorem gets_eq (h : CutsInto streams.input blocks rest) (texts : List (Option String)) :
    host.gets texts streams =
      ((List.range texts.length).map fun i => (blocks.map blockChar)[i]?,
        { streams with input := leftBehind texts.length blocks rest }) := by
  induction texts generalizing streams blocks rest with
  | nil =>
      have hinput : leftBehind 0 blocks rest = streams.input := h.joined.symm
      rw [List.length_nil, hinput]
      rfl
  | cons text texts ih =>
      cases blocks with
      | nil =>
          have hleft : leftBehind texts.length [] [] = leftBehind (texts.length + 1) [] rest := by
            simp [leftBehind]
          have hnil : CutsInto { streams with input := [] }.input [] [] := .empty
          simp only [Host.gets, get_rest h, ih hnil, hleft, List.length_cons,
            List.range_succ_eq_map]
          simp [Function.comp_def]
      | cons block blocks =>
          have hleft : leftBehind texts.length blocks rest =
              leftBehind (texts.length + 1) (block :: blocks) rest := by
            simp [leftBehind]
          have htail :
              CutsInto { streams with input := blocks.flatten ++ rest }.input blocks rest := h.tail
          simp only [Host.gets, get_block h, ih htail, hleft, List.length_cons,
            List.range_succ_eq_map]
          simp

theorem leftBehind_text {text : List Char} {calls : Nat} (h : calls ≤ text.length) :
    leftBehind calls (text.map String.utf8EncodeChar ++ blocks) rest =
      (text.drop calls).flatMap String.utf8EncodeChar ++ blocks.flatten ++ rest := by
  have hblocks : calls ≤ (text.map String.utf8EncodeChar ++ blocks).length := by
    rw [List.length_append, List.length_map]
    omega
  have hmap : calls ≤ (text.map String.utf8EncodeChar).length := by rwa [List.length_map]
  rw [leftBehind, if_pos hblocks, List.drop_append_of_le_length hmap, ← List.map_drop,
    List.flatten_append, List.flatMap_def]

/-- The calls at the beginning of an input that begins with a text. -/
theorem gets_text (text : List Char) (suffix : List UInt8) (texts : List (Option String))
    (hinput : streams.input = text.flatMap String.utf8EncodeChar ++ suffix)
    (hlength : texts.length ≤ text.length) :
    host.gets texts streams =
      ((text.take texts.length).map some,
        { streams with
          input := (text.drop texts.length).flatMap String.utf8EncodeChar ++ suffix }) := by
  obtain ⟨blocks, rest, hsuffix⟩ := Utf8.exists_cutsInto suffix
  have hcut := hsuffix.text text
  rw [← hinput] at hcut
  have hanswers : ((List.range texts.length).map fun i => (text ++ blocks.map blockChar)[i]?) =
      (text.take texts.length).map some := by
    refine List.ext_getElem (by simp [hlength]) fun i hi _ => ?_
    have hi : i < text.length := by
      rw [List.length_map, List.length_range] at hi
      omega
    simp [List.getElem?_append_left hi, hi]
  rw [gets_eq hcut, Utf8.map_blockChar_text, hanswers, leftBehind_text hlength,
    List.append_assoc, ← hsuffix.joined]

/-- The calls on an input that is a text, however many they are. -/
theorem gets_whole_text (text : List Char) (texts : List (Option String))
    (hinput : streams.input = text.flatMap String.utf8EncodeChar) :
    (host.gets texts streams).1 = (List.range texts.length).map (text[·]?) := by
  have hcut := CutsInto.empty.text text
  rw [List.append_nil, ← hinput] at hcut
  rw [gets_eq hcut, Utf8.map_blockChar_text, List.map_nil, List.append_nil]

/-- The input of a console is cut into blocks, in one way only. Calls for a character give the
characters that the blocks stand for, in their order, and leave the bytes behind the blocks that
were taken; when no block is left they give none. A text at the beginning of the input is given
character by character, whatever stands behind it, and nothing else is given if nothing does. -/
theorem gets_blocks (streams : Streams) :
    (∃ blocks rest, CutsInto streams.input blocks rest ∧
      (∀ blocks' rest', CutsInto streams.input blocks' rest' → blocks' = blocks ∧ rest' = rest) ∧
      ∃ characters, List.Forall₂ StandsFor blocks characters ∧
        ∀ texts : List (Option String),
          host.gets texts streams =
            ((List.range texts.length).map (characters[·]?),
              { streams with input := leftBehind texts.length blocks rest })) ∧
    ∀ (text : List Char) (suffix : List UInt8) (texts : List (Option String)),
      streams.input = text.flatMap String.utf8EncodeChar ++ suffix →
        (texts.length ≤ text.length →
          host.gets texts streams =
            ((text.take texts.length).map some,
              { streams with
                input := (text.drop texts.length).flatMap String.utf8EncodeChar ++ suffix })) ∧
        (suffix = [] → (host.gets texts streams).1 = (List.range texts.length).map (text[·]?)) := by
  refine ⟨?_, fun text suffix texts hinput => ⟨gets_text text suffix texts hinput, ?_⟩⟩
  · obtain ⟨blocks, rest, hcut⟩ := Utf8.exists_cutsInto streams.input
    refine ⟨blocks, rest, hcut, fun _ _ hcut' => hcut.unique hcut', blocks.map blockChar, ?_,
      gets_eq hcut⟩
    rw [List.forall₂_map_right_iff, List.forall₂_same]
    exact fun block hblock => (hcut.isBlock block hblock).standsFor_blockChar
  · rintro rfl
    rw [List.append_nil] at hinput
    exact gets_whole_text text texts hinput

/-- A text of two bytes with a byte behind it that is no text. -/
theorem gets_blocks_two_bytes :
    host.gets [none] (Streams.start [0xC3, 0xA9, 0xFF] 0) =
      ([some 'é'], Streams.start [0xFF] 0) :=
  ((gets_blocks (Streams.start [0xC3, 0xA9, 0xFF] 0)).2 ['é'] [0xFF] [none] (by decide)).1
    (by decide)

end Console

end LambdaMachine
