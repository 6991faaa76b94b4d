import LambdaMachine.Proofs.Excerpts
import LambdaMachine.Proofs.Places

/-!
# What a highlight shows

A highlight is drawn at a byte, but it is given a number of characters: those that start before
the offset of the error. Where the text up to the error has one byte for each character the two
are the same, and the character of the error is the coloured one. The number in the gutter counts
feeds. The line of an error counts returns without a feed too, and the end of a comment at the end
of the text (`lineBreaks_eq`).
-/

namespace LambdaMachine

open String (utf8Len)

/-! ### Counting characters -/

/-- The number of characters of a text that start before a byte. -/
def startsBefore (byte : Nat) (text : List Char) : Nat :=
  (List.range text.length).countP fun i => utf8Len (text.take i) < byte

theorem startsBefore_zero (text : List Char) : startsBefore 0 text = 0 := by
  simp [startsBefore]

theorem startsBefore_cons {byte : Nat} (hbyte : byte ≠ 0) (c : Char) (text : List Char) :
    startsBefore byte (c :: text) = startsBefore (byte - c.utf8Size) text + 1 := by
  have hstep : ∀ i, utf8Len ((c :: text).take (i + 1)) < byte ↔
      utf8Len (text.take i) < byte - c.utf8Size := by
    intro i
    rw [List.take_succ_cons, String.utf8Len_cons]
    omega
  rw [startsBefore, List.length_cons, List.range_succ_eq_map, List.countP_cons, List.countP_map]
  simp only [Function.comp_def, Nat.succ_eq_add_one, hstep, startsBefore]
  simp [Nat.pos_of_ne_zero hbyte]

theorem charsBefore_eq (byte count : Nat) (text : List Char) :
    charsBefore byte count text = count + startsBefore byte text := by
  induction text generalizing byte count with
  | nil => rfl
  | cons c text ih =>
      rw [charsBefore]
      split
      next hbyte => rw [hbyte, startsBefore_zero, Nat.add_zero]
      next hbyte =>
          rw [ih, startsBefore_cons hbyte]
          omega

theorem length_le_utf8Len (text : List Char) : text.length ≤ utf8Len text := by
  induction text with
  | nil => exact Nat.zero_le _
  | cons c text ih =>
      have := c.utf8Size_pos
      rw [List.length_cons, String.utf8Len_cons]
      omega

theorem startsBefore_le (byte : Nat) (text : List Char) : startsBefore byte text ≤ utf8Len text :=
  calc startsBefore byte text ≤ (List.range text.length).length := List.countP_le_length
    _ = text.length := List.length_range
    _ ≤ utf8Len text := length_le_utf8Len text

/-- In front of a place start the characters before it. -/
theorem startsBefore_append (before rest : List Char) :
    startsBefore (utf8Len before) (before ++ rest) = before.length := by
  induction before with
  | nil => exact startsBefore_zero rest
  | cons c before ih =>
      have hpositive : utf8Len (c :: before) ≠ 0 := by
        have := c.utf8Size_pos
        rw [String.utf8Len_cons]
        omega
      rw [List.cons_append, startsBefore_cons hpositive, String.utf8Len_cons, Nat.add_sub_cancel,
        ih, List.length_cons]

theorem utf8Len_of_forall {text : List Char} (h : ∀ c ∈ text, c.utf8Size = 1) :
    utf8Len text = text.length := by
  induction text with
  | nil => rfl
  | cons c text ih =>
      obtain ⟨hc, htext⟩ := List.forall_mem_cons.mp h
      rw [String.utf8Len_cons, ih htext, hc, List.length_cons]

/-! ### Counting lines -/

namespace Source

/-- The number of returns of a text with no feed behind them. -/
def loneReturns : List Char → Nat
  | [] => 0
  | '\r' :: '\n' :: text => loneReturns text
  | c :: text => if c = '\r' then loneReturns text + 1 else loneReturns text

theorem Unpaired.singleton {c : Char} {text : List Char}
    (h : ∀ rest, c = '\r' → text = '\n' :: rest → False) : Unpaired [c] text := by
  intro hlast hhead
  obtain ⟨rest, rfl⟩ := List.head?_eq_some_iff.mp hhead
  exact h rest (by simpa using hlast) rfl

theorem loneReturns_cons {c : Char} {text : List Char} (hpair : Unpaired [c] text) :
    loneReturns (c :: text) = (if c = '\r' then 1 else 0) + loneReturns text := by
  rw [loneReturns]
  · split <;> omega
  · rintro rest rfl rfl
    exact hpair rfl rfl

/-- A line break is a feed, or a return without one. -/
theorem lineBreaks_eq (text : List Char) :
    lineBreaks text = text.count '\n' + loneReturns text := by
  fun_induction lineBreaks text with
  | case1 => rfl
  | case2 text ih =>
      simp only [loneReturns, ih, List.count_cons]
      simp
      omega
  | case3 c text hcrlf hbreak ih =>
      rw [loneReturns_cons (.singleton hcrlf), List.count_cons, ih]
      rcases hbreak with rfl | rfl <;> simp <;> omega
  | case4 c text hcrlf hbreak ih =>
      obtain ⟨hfeed, hreturn⟩ := not_or.mp hbreak
      rw [loneReturns_cons (.singleton hcrlf), List.count_cons_of_ne hfeed, if_neg hreturn, ih,
        Nat.zero_add]

/-- Every return of a text has a feed behind it. -/
def ReturnsFed (text : List Char) : Prop :=
  ∀ front back, text = front ++ '\r' :: back → back.head? = some '\n'

theorem returnsFed_cons {c : Char} {text : List Char} :
    ReturnsFed (c :: text) ↔ (c = '\r' → text.head? = some '\n') ∧ ReturnsFed text := by
  constructor
  · intro h
    refine ⟨?_, ?_⟩
    · rintro rfl
      exact h [] text rfl
    · rintro front back rfl
      exact h (c :: front) back rfl
  · rintro ⟨hc, htext⟩ front back heq
    cases front with
    | nil =>
        obtain ⟨rfl, rfl⟩ := List.cons.inj heq
        exact hc rfl
    | cons x front => exact htext front back (List.cons.inj heq).2

theorem loneReturns_eq_zero_iff (text : List Char) : loneReturns text = 0 ↔ ReturnsFed text := by
  fun_induction loneReturns text with
  | case1 => simp [ReturnsFed]
  | case2 text ih => simp [returnsFed_cons, ih]
  | case3 text hcrlf ih =>
      have hhead : text.head? ≠ some '\n' := by
        intro hhead
        obtain ⟨rest, rfl⟩ := List.head?_eq_some_iff.mp hhead
        exact hcrlf rest rfl rfl
      simp [returnsFed_cons, hhead]
  | case4 c text hcrlf hc ih => simp [returnsFed_cons, hc, ih]

end Source

/-! ### The excerpt of an error -/

/-- A text with a space at its end if the place is there. -/
def padded (place : Nat) (text : List Char) : List Char :=
  if place = utf8Len text then text ++ [' '] else text

theorem filled_eq_padded {place : Nat} {text : List Char} (hplace : place ≤ utf8Len text) :
    Excerpt.filled (place + 1) text = padded place text := by
  rw [Excerpt.filled, padded]
  split
  next heq =>
      rw [heq, Nat.add_sub_cancel_left]
      rfl
  next hne =>
      have hnone : place + 1 - utf8Len text = 0 := by omega
      rw [hnone, List.replicate_zero, List.append_nil]

namespace Source

/-- A rejected text is cut at the error, and no line break stands there. -/
theorem exists_error_place {text : String} {arena : Program} {error : SyntaxError}
    (herror : (parse text arena).result = .error error) :
    ∃ before rest, text.toList = before ++ rest ∧ StandsAt before rest error.position ∧
      rest.headD ' ' ≠ '\n' := by
  obtain ⟨before, rest, htext, hstands, hstarts⟩ :=
    (scan_cuts text.toList).exists_startsToken (readTokens_error_mem herror)
  refine ⟨before, rest, htext, hstands, ?_⟩
  cases rest with
  | nil => decide
  | cons c rest => exact fun hfeed => (hstarts c rfl).1 (.inl hfeed)

end Source

/-- In text of one byte for each character, the byte with the number of the characters that start
before a place is the place. -/
theorem padded_append {before : List Char} (rest : List Char) (h : ∀ c ∈ before, c.utf8Size = 1) :
    startsBefore (utf8Len before) (before ++ rest) = utf8Len before ∧
      padded (utf8Len before) (before ++ rest) = before ++ rest.headD ' ' :: rest.tail := by
  refine ⟨by rw [startsBefore_append, utf8Len_of_forall h], ?_⟩
  cases rest with
  | nil => simp [padded]
  | cons c rest =>
      have hpositive := c.utf8Size_pos
      have hne : utf8Len before ≠ utf8Len (before ++ c :: rest) := by
        rw [String.utf8Len_append, String.utf8Len_cons]
        omega
      rw [padded, if_neg hne]
      rfl

namespace SyntaxError

open Excerpt (Conforms LineCut Marks Renderer)
open Source

section Rendering

variable {render : Renderer} {marks : Marks} (hrender : Conforms render marks)
include hrender

/-- Where the byte that a highlight is drawn at starts a character of a line, the highlight is
that line. -/
theorem highlightAt_eq {offset : Nat} {text : String} {before after : List Char} {c : Char}
    (hpadded : padded (startsBefore offset text.toList) text.toList = before ++ c :: after)
    (hplace : utf8Len before = startsBefore offset text.toList) (hc : c ≠ '\n') :
    ∃ above left right below blanks, LineCut before after above left right below ∧
      '\n' ∉ (highlightAt offset text render).toList ∧
      highlightAt offset text render = marks.line blanks (before.count '\n' + 1) left c right := by
  rw [← filled_eq_padded (startsBefore_le _ _)] at hpadded
  have hcut := Excerpt.lineCut before after
  obtain ⟨blanks, hline⟩ := hrender.render_eq hpadded hplace hc hcut
  have hhighlight : highlightAt offset text render =
      render (startsBefore offset text.toList) (startsBefore offset text.toList + 1) text := by
    rw [highlightAt, charsBefore_eq, Nat.zero_add]
  rw [hhighlight, hline]
  exact ⟨_, _, _, _, blanks, hcut, hrender.not_mem_line hcut.left hc hcut.right _ _, rfl⟩

/-- Of a text that is ASCII as far as the error, the highlight colours the character at the
error. -/
theorem highlight_eq {text : String} {arena : Program} {error : SyntaxError}
    (herror : (parse text arena).result = .error error)
    (hascii : ∀ front c back, text.toList = front ++ c :: back →
      utf8Len front ≤ error.position.offset → c.val ≤ 127) :
    ∃ before rest above left right below blanks, text.toList = before ++ rest ∧
      StandsAt before rest error.position ∧ rest.headD ' ' ≠ '\n' ∧
      LineCut before rest.tail above left right below ∧
      error.highlight text render =
        marks.gutter blanks (before.count '\n' + 1) ++ .ofList left ++ marks.on ++
          .singleton (rest.headD ' ') ++ marks.off ++
          (if right = [] then "" else .ofList right ++ marks.off) := by
  obtain ⟨before, rest, htext, hstands, hc⟩ := exists_error_place herror
  have hbefore : ∀ c ∈ before, c.utf8Size = 1 := by
    intro c hmem
    obtain ⟨front, back, rfl⟩ := List.append_of_mem hmem
    have hfront : utf8Len front ≤ error.position.offset := by
      rw [hstands.offset, String.utf8Len_append]
      exact Nat.le_add_right _ _
    rw [List.append_assoc] at htext
    exact Char.utf8Size_eq_one_iff.mpr (hascii front c (back ++ rest) htext hfront)
  have hone : (rest.headD ' ').utf8Size = 1 := by
    cases rest with
    | nil => rfl
    | cons c rest =>
        exact Char.utf8Size_eq_one_iff.mpr
          (hascii before c rest htext (Nat.le_of_eq hstands.offset.symm))
  obtain ⟨hstarts, hpadded⟩ := padded_append rest hbefore
  rw [← htext, ← hstands.offset] at hstarts hpadded
  rw [← hstarts] at hpadded
  have hplace : utf8Len before = startsBefore error.position.offset text.toList := by
    rw [hstarts, hstands.offset]
  obtain ⟨above, left, right, below, blanks, hcut, -, hline⟩ :=
    highlightAt_eq hrender hpadded hplace hc
  rw [Marks.line_of_one hone] at hline
  exact ⟨before, rest, above, left, right, below, blanks, htext, hstands, hc, hcut, hline⟩

end Rendering

/-- Whatever draws the excerpts as it is documented to: where the byte that a highlight is drawn at
starts a character of a line, the highlight is that line alone, and the colour is on from that
character. Of a text that is ASCII as far as an error and there, it is the character at the error,
or the space added to the text if it ends there. The number in the gutter is the line of the error,
if no return before it is without its feed and it is not at the end of a last comment. -/
theorem highlight_place {render : Renderer} {marks : Marks} (hrender : Conforms render marks)
    (text : String) :
    (∀ (offset : Nat) (before after : List Char) (c : Char),
      padded (startsBefore offset text.toList) text.toList = before ++ c :: after →
      utf8Len before = startsBefore offset text.toList → c ≠ '\n' →
      ∃ above left right below blanks, LineCut before after above left right below ∧
        '\n' ∉ (highlightAt offset text render).toList ∧
        highlightAt offset text render =
          marks.line blanks (before.count '\n' + 1) left c right) ∧
    ∀ (arena : Program) (error : SyntaxError), (parse text arena).result = .error error →
      (∀ front c back, text.toList = front ++ c :: back →
        utf8Len front ≤ error.position.offset → c.val ≤ 127) →
      ∃ before rest above left right below blanks, text.toList = before ++ rest ∧
        utf8Len before = error.position.offset ∧ rest.headD ' ' ≠ '\n' ∧
        LineCut before rest.tail above left right below ∧
        error.highlight text render =
          marks.gutter blanks (before.count '\n' + 1) ++ .ofList left ++ marks.on ++
            .singleton (rest.headD ' ') ++ marks.off ++
            (if right = [] then "" else .ofList right ++ marks.off) ∧
        error.position.line = before.count '\n' + 1 + loneReturns before +
          (if CommentOpen before then 1 else 0) ∧
        (before.count '\n' + 1 = error.position.line ↔
          ReturnsFed before ∧ ¬ CommentOpen before) ∧
        (CommentOpen before → rest = []) := by
  refine ⟨fun offset before after c hpadded hplace hc => highlightAt_eq hrender hpadded hplace hc,
    fun arena error herror hascii => ?_⟩
  obtain ⟨before, rest, above, left, right, below, blanks, htext, hstands, hc, hcut, hline⟩ :=
    highlight_eq hrender herror hascii
  have hnumber : error.position.line = before.count '\n' + 1 + loneReturns before +
      (if CommentOpen before then 1 else 0) := by
    rw [hstands.line, lineBreaks_eq]
    omega
  refine ⟨before, rest, above, left, right, below, blanks, htext, hstands.offset.symm, hc, hcut,
    hline, hnumber, ?_, hstands.comment⟩
  rw [← loneReturns_eq_zero_iff, hnumber]
  by_cases hopen : CommentOpen before
  · simp only [hopen, if_true, not_true_eq_false, and_false, iff_false]
    omega
  · simp only [hopen, if_false, not_false_eq_true, and_true]
    omega

/-- On the command line, a character of the second line that begins no token. -/
theorem highlight_place_second_line : Conforms Excerpt.render Excerpt.marks ∧
    (∃ blanks left right, highlightAt 3 "'\n,x\n" Excerpt.render =
      Excerpt.marks.line blanks 2 left 'x' right) ∧
    (parse "'\n,x\n" .empty).result = .error ⟨.unexpectedCharacter, ⟨3, 2, 2⟩⟩ ∧
    ∃ before rest, "'\n,x\n".toList = before ++ rest ∧ utf8Len before = 3 ∧
      (before.count '\n' + 1 = 2 ↔ ReturnsFed before ∧ ¬ CommentOpen before) := by
  have herror : (parse "'\n,x\n" .empty).result =
      .error ⟨.unexpectedCharacter, ⟨3, 2, 2⟩⟩ := by
    decide +kernel
  have hascii : "'\n,x\n".toList.all (·.val ≤ 127) = true := by decide
  obtain ⟨hhighlights, herrors⟩ := highlight_place Excerpt.conforms_render "'\n,x\n"
  obtain ⟨_, left, right, _, blanks, _, _, hline⟩ :=
    hhighlights 3 ['\'', '\n', ','] ['\n'] 'x' (by decide) (by decide) (by decide)
  obtain ⟨before, rest, _, _, _, _, _, htext, hoffset, _, _, _, _, hnumber, _⟩ :=
    herrors .empty _ herror fun front c back htext _ =>
      of_decide_eq_true (List.all_eq_true.mp hascii c (by simp [htext]))
  exact ⟨Excerpt.conforms_render, ⟨blanks, left, right, hline⟩, herror, before, rest, htext,
    hoffset, hnumber⟩

end SyntaxError

end LambdaMachine
