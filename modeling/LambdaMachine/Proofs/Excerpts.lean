import LambdaMachine.Source.Excerpt
import Mathlib.Data.List.DropRight
import Mathlib.Data.String.Basic

/-!
# Excerpts of one line

What draws an excerpt is not part of the machine, and only this is asked of it (`Conforms`): spans
are counted in bytes, a short file is filled up with spaces, and a span in one line is shown by
that line with its number, and with the colour on from the span's first byte and off from its
last. From this follows what the excerpt around one character is (`Conforms.render_eq`). The
excerpts of the command line are of this kind (`conforms_render`).
-/

namespace LambdaMachine.Excerpt

open String (utf8Len)

/-! ### Lines of a text -/

/-- Two parts of a text are cut into what they have in one line, and the lines above and below
it. -/
structure LineCut (before after above left right below : List Char) : Prop where
  before_eq : before = above ++ left
  after_eq : after = right ++ below
  left : '\n' ∉ left
  right : '\n' ∉ right
  above : ∀ x ∈ above.getLast?, x = '\n'
  below : ∀ x ∈ below.head?, x = '\n'

theorem lineCut (before after : List Char) :
    LineCut before after (before.rdropWhile (· != '\n')) (before.rtakeWhile (· != '\n'))
      (after.takeWhile (· != '\n')) (after.dropWhile (· != '\n')) where
  before_eq := List.rdropWhile_append_rtakeWhile.symm
  after_eq := List.takeWhile_append_dropWhile.symm
  left hmem := by simpa using List.mem_rtakeWhile_imp hmem
  right hmem := by simpa using List.mem_takeWhile_imp hmem
  above x hlast := by
    obtain ⟨hne, rfl⟩ := List.mem_getLast?_eq_getLast hlast
    simpa using List.rdropWhile_last_not (· != '\n') before hne
  below x hhead := by
    have hstop := List.head?_dropWhile_not (· != '\n') after
    rw [Option.mem_def.mp hhead] at hstop
    simpa using hstop

namespace LineCut

variable {before after above left right below : List Char}

/-- A character that is no line break is in the same line. -/
theorem cons (h : LineCut before after above left right below) {c : Char} (hc : c ≠ '\n') :
    LineCut before (c :: after) above left (c :: right) below :=
  { h with
    after_eq := by rw [h.after_eq, List.cons_append]
    right := List.not_mem_cons_of_ne_of_not_mem (Ne.symm hc) h.right }

theorem line (h : LineCut before after above left right below) : '\n' ∉ left ++ right :=
  List.not_mem_append h.left h.right

/-- The lines above end where the last line in front is cut off. -/
theorem dropWhile_reverse (h : LineCut before after above left right below) :
    before.reverse.dropWhile (· != '\n') = above.reverse := by
  have hleft : ∀ x ∈ left.reverse, (x != '\n') = true := by
    intro x hmem
    rw [bne_iff_ne]
    rintro rfl
    exact h.left (List.mem_reverse.mp hmem)
  rw [h.before_eq, List.reverse_append, List.dropWhile_append_of_pos hleft]
  cases habove : above.reverse with
  | nil => rfl
  | cons x rest =>
      have hx : x = '\n' := h.above x (by rw [List.getLast?_eq_head?_reverse, habove]; rfl)
      simp [hx]

/-- The line ends where the lines below begin. -/
theorem takeWhile_eq (h : LineCut before after above left right below) {front back : List Char}
    (hright : right = front ++ back) : (back ++ below).takeWhile (· != '\n') = back := by
  have hback : ∀ x ∈ back, (x != '\n') = true := by
    intro x hmem
    rw [bne_iff_ne]
    rintro rfl
    exact h.right (hright ▸ List.mem_append_right front hmem)
  rw [List.takeWhile_append_of_pos hback]
  cases hbelow : below with
  | nil => simp
  | cons x rest =>
      have hx : x = '\n' := h.below x (by rw [hbelow]; rfl)
      simp [hx]

end LineCut

/-- A text with spaces behind it up to a byte. -/
def filled (stop : Nat) (text : List Char) : List Char :=
  text ++ List.replicate (stop - utf8Len text) ' '

/-! ### What a renderer does -/

/-- What a renderer writes to switch the colour on and off. -/
structure Marks where
  on : String
  off : String

namespace Marks

variable (marks : Marks)

/-- The gutter in front of a line with this number, without colour. -/
def gutter (blanks number : Nat) : String :=
  marks.off ++ " " ++ "".pushn ' ' blanks ++ toString number ++ " | "

/-- Characters with the colour switched on in front of the one that starts at `start`, and off in
front of the one that starts at `stop`. The first of them starts at `byte`. -/
def drawn (start stop byte : Nat) : List Char → String
  | [] => ""
  | c :: rest =>
      (if byte = start then marks.on else "") ++ (if byte = stop then marks.off else "") ++
        .singleton c ++ drawn start stop (byte + c.utf8Size) rest

end Marks

/-- The renderer does what it is documented to do. Spans are counted in bytes and lines end at
feeds. -/
structure Conforms (render : Renderer) (marks : Marks) : Prop where
  /-- A file that ends in front of the end of the span is filled up with spaces. -/
  fills : ∀ start stop file,
    render start stop (.ofList (filled stop file.toList)) = render start stop file
  /-- Of a span in one line, this line is shown behind a gutter with its number. The colour is on
  in the span, and off at the end. -/
  shows : ∀ {start stop : Nat} {before after above left right below : List Char},
    LineCut before after above left right below → utf8Len before = start → start < stop →
    stop ≤ utf8Len (before ++ right) →
    ∃ blanks, render start stop (.ofList (before ++ after)) =
      marks.gutter blanks (above.count '\n' + 1) ++
        marks.drawn start stop (utf8Len above) (left ++ right) ++ marks.off
  /-- The marks of the colour break no line. -/
  on_line : '\n' ∉ marks.on.toList
  off_line : '\n' ∉ marks.off.toList

/-! ### The excerpt around a character -/

namespace Marks

variable {marks : Marks} {start stop byte : Nat} {left right rest text : List Char} {c : Char}

/-- Nothing is coloured before the span. -/
theorem drawn_before (hstart : byte + utf8Len left ≤ start) (hstop : start < stop) :
    marks.drawn start stop byte (left ++ rest) =
      .ofList left ++ marks.drawn start stop (byte + utf8Len left) rest := by
  induction left generalizing byte with
  | nil => simp
  | cons x left ih =>
      have hpositive := x.utf8Size_pos
      rw [String.utf8Len_cons] at hstart ⊢
      have hne : byte ≠ start := by omega
      have hne' : byte ≠ stop := by omega
      rw [List.cons_append, drawn, if_neg hne, if_neg hne', ih (by omega), String.ofList_cons,
        String.append_assoc, String.append_assoc, Nat.add_right_comm, Nat.add_assoc]
      simp [String.append_assoc]

/-- Nothing changes behind the end of the span. -/
theorem drawn_behind (hstart : start < byte) (hstop : stop < byte) :
    marks.drawn start stop byte text = .ofList text := by
  induction text generalizing byte with
  | nil => rfl
  | cons x text ih =>
      have hne : byte ≠ start := by omega
      have hne' : byte ≠ stop := by omega
      rw [drawn, if_neg hne, if_neg hne', ih (by omega) (by omega), String.ofList_cons]
      simp

/-- A character is coloured that starts with the span's only byte, and so is what follows it if
it is longer than a byte. -/
theorem drawn_at : marks.drawn start (start + 1) start (c :: right) =
    marks.on ++ .singleton c ++ (if c.utf8Size = 1 ∧ right ≠ [] then marks.off else "") ++
      .ofList right := by
  have hsize := c.utf8Size_pos
  have hne : start ≠ start + 1 := by omega
  rw [drawn, if_pos rfl, if_neg hne, String.append_empty]
  cases right with
  | nil => simp [drawn]
  | cons x right =>
      have hx := x.utf8Size_pos
      by_cases hone : c.utf8Size = 1
      · have hne' : start + 1 ≠ start := by omega
        rw [hone, drawn, if_neg hne', if_pos rfl, drawn_behind (by omega) (by omega),
          if_pos ⟨rfl, List.cons_ne_nil x right⟩, String.ofList_cons]
        simp only [String.empty_append, String.append_assoc]
      · rw [drawn_behind (by omega) (by omega)]
        simp [hone]

/-- One line behind its gutter, with the colour on before one of its characters. Behind that
character it is off if this is one byte long and not the last of the line. -/
def line (marks : Marks) (blanks number : Nat) (left : List Char) (c : Char)
    (right : List Char) : String :=
  marks.gutter blanks number ++ .ofList left ++ marks.on ++ .singleton c ++
    (if c.utf8Size = 1 ∧ right ≠ [] then marks.off else "") ++ .ofList right ++ marks.off

/-- Only the character itself is coloured if it is one byte long. -/
theorem line_of_one {blanks number : Nat} (hone : c.utf8Size = 1) :
    marks.line blanks number left c right =
      marks.gutter blanks number ++ .ofList left ++ marks.on ++ .singleton c ++ marks.off ++
        (if right = [] then "" else .ofList right ++ marks.off) := by
  by_cases hright : right = []
  · simp [line, hright]
  · simp [line, hone, hright, String.append_assoc]

theorem not_mem_gutter (hoff : '\n' ∉ marks.off.toList) (blanks number : Nat) :
    '\n' ∉ (marks.gutter blanks number).toList := by
  have hblanks : '\n' ∉ ("".pushn ' ' blanks).toList := by
    rw [String.pushn_eq_repeat_push]
    induction blanks with
    | zero => simp [Nat.repeat]
    | succ n ih => simpa [Nat.repeat] using ih
  have hdigits : '\n' ∉ (toString number).toList := by
    intro hmem
    rw [Nat.toString_eq_ofList_toDigits, String.toList_ofList] at hmem
    exact absurd (Nat.isDigit_of_mem_toDigits (by decide) (by decide) hmem) (by decide)
  simp only [gutter, String.toList_append, List.mem_append, not_or]
  exact ⟨⟨⟨⟨hoff, by decide⟩, hblanks⟩, hdigits⟩, by decide⟩

end Marks

namespace Conforms

variable {render : Renderer} {marks : Marks} {before after above left right below : List Char}
  {c : Char}

/-- An excerpt of one line does not break it. -/
theorem not_mem_line (h : Conforms render marks) (hleft : '\n' ∉ left) (hc : c ≠ '\n')
    (hright : '\n' ∉ right) (blanks number : Nat) :
    '\n' ∉ (marks.line blanks number left c right).toList := by
  have hoff : '\n' ∉ (if c.utf8Size = 1 ∧ right ≠ [] then marks.off else "").toList := by
    split
    · exact h.off_line
    · simp
  simp only [Marks.line, String.toList_append, List.mem_append, String.toList_ofList,
    String.toList_singleton, List.mem_singleton, not_or]
  exact ⟨⟨⟨⟨⟨⟨Marks.not_mem_gutter h.off_line blanks number, hleft⟩, h.on_line⟩, Ne.symm hc⟩,
    hoff⟩, hright⟩, h.off_line⟩

/-- The excerpt around a character that is no line break is its line. -/
theorem render_eq (h : Conforms render marks) {byte : Nat} {file : String}
    (hfile : filled (byte + 1) file.toList = before ++ c :: after) (hbyte : utf8Len before = byte)
    (hc : c ≠ '\n') (hcut : LineCut before after above left right below) :
    ∃ blanks, render byte (byte + 1) file =
      marks.line blanks (before.count '\n' + 1) left c right := by
  have hinside : byte + 1 ≤ utf8Len (before ++ c :: right) := by
    have := c.utf8Size_pos
    rw [String.utf8Len_append, String.utf8Len_cons]
    omega
  obtain ⟨blanks, hrender⟩ := h.shows (hcut.cons hc) hbyte (Nat.lt_succ_self byte) hinside
  have hnumber : before.count '\n' = above.count '\n' := by
    rw [hcut.before_eq, List.count_append, List.count_eq_zero_of_not_mem hcut.left, Nat.add_zero]
  have hplace : utf8Len above + utf8Len left = byte := by
    rw [← String.utf8Len_append, ← hcut.before_eq, hbyte]
  refine ⟨blanks, ?_⟩
  rw [← h.fills, hfile, hrender, Marks.drawn_before (Nat.le_of_eq hplace) (Nat.lt_succ_self byte),
    hplace, Marks.drawn_at, hnumber, Marks.line]
  simp only [String.append_assoc]

end Conforms

/-! ### The excerpts of the command line -/

/-- The marks of the command line. -/
def marks : Marks := ⟨colour, plain⟩

theorem byteLength_eq (text : List Char) : byteLength text = utf8Len text := by
  have hsum : ∀ bytes, text.foldl (fun bytes c => bytes + c.utf8Size) bytes =
      bytes + utf8Len text := by
    induction text with
    | nil => exact fun _ => rfl
    | cons c text ih =>
        intro bytes
        rw [List.foldl_cons, ih, String.utf8Len_cons]
        omega
  rw [byteLength, hsum, Nat.zero_add]

theorem render_filled (start stop : Nat) (file : String) :
    render start stop (.ofList (filled stop file.toList)) = render start stop file := by
  have hfull : stop - utf8Len (filled stop file.toList) = 0 := by
    have hblank : ' '.utf8Size = 1 := rfl
    have hblanks : ∀ n, utf8Len (List.replicate n ' ') = n := by
      intro n
      induction n with
      | zero => rfl
      | succ n ih => rw [List.replicate_succ, String.utf8Len_cons, ih, hblank, Nat.add_comm]
    rw [filled, String.utf8Len_append, hblanks]
    omega
  simp only [render, byteLength_eq, String.toList_ofList, hfull, List.replicate_zero,
    List.append_nil]
  rfl

section Drawing

variable {width start stop byte number : Nat} {coloured : Bool}
  {before after above left right below text : List Char}

/-- A byte is in the text behind another one that starts a character. -/
theorem splitAtByte_append (hbyte : utf8Len before ≤ byte) (passed : List Char) :
    splitAtByte (before ++ text) byte passed =
      splitAtByte text (byte - utf8Len before) (before.reverse ++ passed) := by
  induction before generalizing byte passed with
  | nil => rfl
  | cons x before ih =>
      have hpositive := x.utf8Size_pos
      rw [String.utf8Len_cons] at hbyte ⊢
      have hne : byte ≠ 0 := by omega
      rw [List.cons_append, splitAtByte, if_neg hne, ih (by omega), List.reverse_cons,
        List.append_assoc, Nat.sub_sub, Nat.add_comm x.utf8Size]
      rfl

theorem splitAtByte_zero (text passed : List Char) :
    splitAtByte text 0 passed = (passed, text) := by
  cases text <;> rfl

/-- A byte of a line cuts the line. -/
theorem exists_splitAtByte (hbyte : byte ≤ utf8Len right) (passed : List Char) :
    ∃ front back, right = front ++ back ∧
      splitAtByte (right ++ below) byte passed = (front.reverse ++ passed, back ++ below) := by
  induction right generalizing byte passed with
  | nil =>
      obtain rfl : byte = 0 := Nat.le_zero.mp hbyte
      exact ⟨[], [], rfl, splitAtByte_zero below passed⟩
  | cons x right ih =>
      by_cases hzero : byte = 0
      · exact ⟨[], x :: right, rfl, by rw [hzero, splitAtByte_zero]; rfl⟩
      · rw [String.utf8Len_cons] at hbyte
        obtain ⟨front, back, rfl, hsplit⟩ := ih (by omega : byte - x.utf8Size ≤ utf8Len right)
          (x :: passed)
        refine ⟨x :: front, back, rfl, ?_⟩
        rw [List.cons_append, splitAtByte, if_neg hzero, hsplit]
        simp

/-- The lines around a span in one line are this line. -/
theorem linesAt_append (hcut : LineCut before after above left right below)
    (hbefore : utf8Len before = start) (hstart : start < stop)
    (hstop : stop ≤ utf8Len (before ++ right)) :
    linesAt (before ++ after) start stop =
      ⟨left ++ right, above.count '\n', utf8Len above, utf8Len (before ++ right)⟩ := by
  rw [String.utf8Len_append] at hstop
  obtain ⟨front, back, hright, hsplit⟩ :=
    exists_splitAtByte (by omega : stop - utf8Len before ≤ utf8Len right) (before.reverse ++ [])
  have hback : (back ++ below).takeWhile (· != '\n') = back := hcut.takeWhile_eq hright
  have hshown : (front.reverse ++ (before.reverse ++ [])).reverse ++ back = before ++ right := by
    simp [hright]
  rw [linesAt, splitAtByte_append (by omega), splitAtByte_append (by omega), hbefore, Nat.sub_self,
    splitAtByte_zero, ← hbefore, hcut.after_eq, hsplit]
  simp only [byteLength_eq, List.append_nil, String.utf8Len_reverse, if_true,
    hcut.dropWhile_reverse, List.length_reverse, List.count_reverse]
  rw [List.append_nil] at hshown
  rw [hback, hshown, hcut.before_eq, List.append_assoc, List.drop_left]

theorem draw_gutter (hne : text ≠ []) (behind : String) :
    draw width start stop ⟨byte, number, true, false⟩ behind text =
      draw width start stop ⟨byte, number, false, false⟩ (behind ++ gutter width number) text := by
  obtain ⟨x, text, rfl⟩ := List.exists_cons_of_ne_nil hne
  simp [draw]

/-- Of a line every character is drawn, with what the colour needs in front. -/
theorem draw_line (hline : '\n' ∉ text) (behind : String) :
    draw width start stop ⟨byte, number, false, coloured⟩ behind text =
      behind ++ marks.drawn start stop byte text ++ plain := by
  induction text generalizing byte coloured behind with
  | nil => simp [draw, Marks.drawn]
  | cons x text ih =>
      obtain ⟨hx, hline⟩ := not_or.mp (List.mem_cons.not.mp hline)
      rw [draw]
      simp only [beq_eq_false_iff_ne.mpr (Ne.symm hx), Bool.false_eq_true, Bool.false_and, if_false]
      rw [ih hline, Marks.drawn]
      split <;> split <;> simp only [marks, String.push_eq_append, String.append_assoc,
        String.empty_append, String.append_empty]

end Drawing

/-- The excerpts of the command line are drawn as they are documented. -/
theorem conforms_render : Conforms render marks where
  fills := render_filled
  shows {start stop before after above left right below} hcut hbefore hstart hstop := by
    have hfull : stop - byteLength (before ++ after) = 0 := by
      rw [byteLength_eq, hcut.after_eq, ← List.append_assoc, String.utf8Len_append]
      omega
    have hne : left ++ right ≠ [] := by
      rintro hnil
      rw [(List.append_eq_nil_iff.mp hnil).2, List.append_nil] at hstop
      omega
    simp only [render, String.toList_ofList, hfull, List.replicate_zero, List.append_nil,
      linesAt_append hcut hbefore hstart hstop, draw_gutter hne, draw_line hcut.line]
    exact ⟨_, rfl⟩
  on_line := by decide
  off_line := by decide

end LambdaMachine.Excerpt
