import LambdaMachine.Source.SyntaxError

/-!
# Excerpts of a source text

An excerpt shows the lines of a text around a span of bytes, numbered in a gutter, and
colours the span. Which function draws it is left open. The highlight of an error hands
it the number of characters in front of the error, and the number behind that, for the
bytes of a span.

The command line draws excerpts as `render` does. The text is filled up with spaces as
far as the span. A line break in a span of one byte is shown as a space in front of it.
A span that starts within a character colours nothing, and the excerpt then starts with
the text.
-/

namespace LambdaMachine

namespace Excerpt

/-- A function that gives the excerpt of a file around its bytes from `start` on and
before `stop`. -/
abbrev Renderer : Type := (start stop : Nat) → (file : String) → String

/-- Switches the colour on: underlined and red. -/
def colour : String := "\x1b[4m\x1b[31m"

/-- Switches the colour off. -/
def plain : String := "\x1b[0m"

/-- The number of bytes of a text. -/
def byteLength (text : List Char) : Nat :=
  text.foldl (fun bytes c => bytes + c.utf8Size) 0

/-- Cut a text before the first character that starts at a byte or behind it. Of the
part in front the last character is first. -/
def splitAtByte (text : List Char) (byte : Nat) (before : List Char) :
    List Char × List Char :=
  match text with
  | [] => (before, [])
  | c :: rest =>
      if byte = 0 then (before, c :: rest)
      else splitAtByte rest (byte - c.utf8Size) (c :: before)

/-- The lines that an excerpt shows. -/
structure Lines where
  /-- The characters of the lines, without the last line break. -/
  text : List Char
  /-- The number of line breaks in front of the first line. -/
  first : Nat
  /-- The number of bytes in front of the first line. -/
  start : Nat
  /-- The number of bytes up to the end of the last line. -/
  stop : Nat

/-- The lines around a span: from the start of the line where it starts, to the first
line break that is not in front of its end. -/
def linesAt (text : List Char) (start stop : Nat) : Lines :=
  let (before, _) := splitAtByte text start []
  let (front, back) := splitAtByte text stop []
  let above := if byteLength before = start then before.dropWhile (· != '\n') else []
  let shown := front.reverse ++ back.takeWhile (· != '\n')
  ⟨shown.drop above.length, above.count '\n', byteLength above, byteLength shown⟩

/-- The gutter in front of a line. -/
def gutter (width line : Nat) : String :=
  let number := toString (line + 1)
  plain ++ " " ++ "".pushn ' ' (width - number.length) ++ number ++ " | "

/-- Where drawing stands: the byte of the next character, the number of line breaks
so far, and whether a gutter is due and the colour is on. -/
structure Pen where
  byte : Nat
  line : Nat
  gutterDue : Bool
  coloured : Bool

/-- Draw characters behind a text. The colour is on from the character that starts at
`start`, and off from the one that starts at `stop`. -/
def draw (width start stop : Nat) (pen : Pen) (text : String) : List Char → String
  | [] => text ++ plain
  | c :: rest =>
      let text :=
        if pen.gutterDue then
          text ++ gutter width pen.line ++ (if pen.coloured then colour else "")
        else text
      let breaks := c == '\n'
      let text := if pen.byte = start then text ++ colour else text
      let coloured := pen.coloured || pen.byte == start
      let text := if breaks && coloured && stop - start == 1 then text.push ' ' else text
      let text := if pen.byte = stop then text ++ plain else text
      let coloured := coloured && pen.byte != stop
      let line := if breaks then pen.line + 1 else pen.line
      draw width start stop ⟨pen.byte + c.utf8Size, line, breaks, coloured⟩ (text.push c) rest

/-- The excerpt of a file around a span. The gutter leaves room for the number of the
byte behind the lines shown, which no line number exceeds. -/
def render : Renderer := fun start stop file =>
  let text := file.toList
  let text := text ++ List.replicate (stop - byteLength text) ' '
  let lines := linesAt text start stop
  let width := (toString (lines.stop + 2)).length
  draw width start stop ⟨lines.start, lines.first, true, false⟩ "" lines.text

end Excerpt

/-- The number of characters of a text that start before a byte, on top of those
already counted. -/
def charsBefore (offset : Nat) (count : Nat) : List Char → Nat
  | [] => count
  | c :: rest =>
      if offset = 0 then count else charsBefore (offset - c.utf8Size) (count + 1) rest

namespace SyntaxError

/-- The excerpt of a text that highlights an error at an offset. -/
def highlightAt (offset : Nat) (text : String)
    (render : Excerpt.Renderer := Excerpt.render) : String :=
  let start := charsBefore offset 0 text.toList
  render start (start + 1) text

/-- The excerpt of a text that highlights an error. -/
def highlight (error : SyntaxError) (text : String)
    (render : Excerpt.Renderer := Excerpt.render) : String :=
  highlightAt error.position.offset text render

end SyntaxError

end LambdaMachine
