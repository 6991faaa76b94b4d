import LambdaMachine.Source.Position

/-!
# Tokens

A text is a sequence of tokens with trivia between them. A run of dots or of colons
is one token as long as possible, so two runs of one kind need trivia in between.
Trivia are spaces, tabs, line breaks and comments; a comment starts at a semicolon
and takes the rest of its line. A line break is a line feed, a carriage return, or
the two in the order return, feed.

`scan` cuts a text into its tokens, each with its position, up to the end or to the
first character that starts neither a token nor trivia.
-/

namespace LambdaMachine

/-- A token of a program text. -/
inductive Token where
  /-- An apostrophe: an abstraction, whose body follows. -/
  | lam
  /-- A comma: an application, whose function and argument follow. -/
  | app
  /-- A double quote: the unit. -/
  | unit
  /-- A run of dots, one more than `index`: a variable. -/
  | dots (index : Nat)
  /-- A run of colons, one more than `extra`: a built-in. -/
  | colons (extra : Nat)
  deriving DecidableEq, Repr, Inhabited

namespace Token

/-- The characters of a token. -/
def chars : Token → List Char
  | lam => ['\'']
  | app => [',']
  | unit => ['"']
  | dots index => List.replicate (index + 1) '.'
  | colons extra => List.replicate (extra + 1) ':'

/-- The number of characters of a token, which are one byte each. -/
def length : Token → Nat
  | lam => 1
  | app => 1
  | unit => 1
  | dots index => index + 1
  | colons extra => extra + 1

theorem length_chars (token : Token) : token.chars.length = token.length := by
  cases token <;> simp [chars, length]

/-- The token that starts with a character, cut from the text that follows it. -/
def read? (first : Char) (text : List Char) : Option (Token × List Char) :=
  match first with
  | '\'' => some (lam, text)
  | ',' => some (app, text)
  | '"' => some (unit, text)
  | '.' => some (dots (text.takeWhile (· == '.')).length, text.dropWhile (· == '.'))
  | ':' => some (colons (text.takeWhile (· == ':')).length, text.dropWhile (· == ':'))
  | _ => none

/-- A run and what follows it make up the text. -/
theorem run_append_dropWhile (c : Char) (text : List Char) :
    List.replicate (text.takeWhile (· == c)).length c ++ text.dropWhile (· == c) = text := by
  have hrun : text.takeWhile (· == c) = List.replicate (text.takeWhile (· == c)).length c :=
    List.eq_replicate_of_mem fun x hx => by
      simpa using List.all_eq_true.1 List.all_takeWhile x hx
  rw [← hrun, List.takeWhile_append_dropWhile]

/-- Cutting off a token loses nothing. -/
theorem chars_append_of_read? {first : Char} {text rest : List Char} {token : Token}
    (hread : read? first text = some (token, rest)) : token.chars ++ rest = first :: text := by
  unfold read? at hread
  split at hread <;> simp only [Option.some.injEq, Prod.mk.injEq, reduceCtorEq] at hread <;>
    obtain ⟨rfl, rfl⟩ := hread <;> simp [chars, List.replicate_succ, run_append_dropWhile]

theorem length_of_read? {first : Char} {text rest : List Char} {token : Token}
    (hread : read? first text = some (token, rest)) :
    token.length + rest.length = text.length + 1 := by
  have hchars := congrArg List.length (chars_append_of_read? hread)
  simpa [length_chars] using hchars

theorem length_pos (token : Token) : 0 < token.length := by
  cases token <;> simp [length]

end Token

namespace Source

/-- Skip trivia. Within a comment everything up to the line break is skipped, and the
column does not move; a comment that ends with the text ends its line all the same. -/
def skipTrivia (comment : Bool) (position : Position) : List Char → Position × List Char
  | [] => (if comment then position.newline 0 else position, [])
  | '\r' :: '\n' :: text => skipTrivia false (position.newline 2) text
  | '\r' :: text => skipTrivia false (position.newline 1) text
  | '\n' :: text => skipTrivia false (position.newline 1) text
  | first :: text =>
      if comment then
        skipTrivia true { position with offset := position.offset + first.utf8Size } text
      else if first = ' ' ∨ first = '\t' then
        skipTrivia false (position.advance 1) text
      else if first = ';' then
        skipTrivia true { position with offset := position.offset + 1 } text
      else
        (position, first :: text)

theorem length_skipTrivia_le (comment : Bool) (position : Position) (text : List Char) :
    (skipTrivia comment position text).2.length ≤ text.length := by
  fun_induction skipTrivia comment position text <;> simp_all <;> omega

/-- Where a scan ends. -/
inductive Ending where
  /-- At the end of the text. -/
  | endOfText
  /-- At a character that starts neither a token nor trivia. -/
  | strangeCharacter
  deriving DecidableEq, Repr

/-- The tokens of a text in order, each with its position, and where they end. -/
structure Scan where
  tokens : List (Position × Token)
  ending : Ending
  stop : Position
  deriving Repr

/-- Cut a text into tokens behind those already found, of which the last is first. -/
def scanFrom (position : Position) (text : List Char) (found : List (Position × Token)) :
    Scan :=
  match _hskip : skipTrivia false position text with
  | (start, []) => ⟨found.reverse, .endOfText, start⟩
  | (start, first :: tail) =>
      match _hread : Token.read? first tail with
      | none => ⟨found.reverse, .strangeCharacter, start⟩
      | some (token, rest) =>
          scanFrom (start.advance token.length) rest ((start, token) :: found)
termination_by text.length
decreasing_by
  have hskipped := length_skipTrivia_le false position text
  have hrest := Token.length_of_read? _hread
  have hpos := token.length_pos
  simp only [_hskip, List.length_cons] at hskipped
  omega

/-- Cut a text into tokens. -/
def scan (text : List Char) : Scan :=
  scanFrom .start text []

end Source

end LambdaMachine
