import LambdaMachine.Arena.Traversal
import LambdaMachine.Atom
import LambdaMachine.Source.Token

/-!
# Listing a program

A listing is the text of a term. Read back it gives the term again, as far as it
shows tokens only: the application that is to be reduced can be put in brackets, and
an output that waits for the unit shows its number in braces.

Two neighbouring runs of one kind are set apart by a space; nothing else is.
-/

namespace LambdaMachine

namespace Listing

/-- A part of a listing. -/
inductive Piece where
  | token (token : Token)
  /-- The bracket before the marked application. -/
  | opening
  /-- The bracket behind the marked application. -/
  | closing
  /-- The number of an output that waits for the unit. -/
  | pending (number : Option Nat)
  deriving DecidableEq, Repr

namespace Piece

/-- Whether two pieces would be read as one if nothing stood between them. -/
def merges : Piece → Piece → Bool
  | token (.dots _), token (.dots _) => true
  | token (.colons _), token (.colons _) => true
  | _, _ => false

/-- A text with a piece written behind it. -/
def write (text : String) : Piece → String
  | token .lam => text.push '\''
  | token .app => text.push ','
  | token .unit => text.push '"'
  | token (.dots index) => text.pushn '.' (index + 1)
  | token (.colons extra) => text.pushn ':' (extra + 1)
  | opening => text.push '['
  | closing => text.push ']'
  | pending (some number) => text ++ "\x7b" ++ toString number ++ "\x7d"
  | pending none => text ++ "\x7bNaN\x7d"

end Piece

/-- Write pieces behind a text whose last piece, if any, is given. -/
def writeAll (text : String) (last : Option Piece) : List Piece → String
  | [] => text
  | piece :: pieces =>
      let text := if last.any (·.merges piece) then text.push ' ' else text
      writeAll (piece.write text) (some piece) pieces

/-- What remains to be listed. -/
inductive Task where
  | term (ref : Ref)
  | closing

/-- The piece of a leaf. -/
def atomPiece : Atom → Piece
  | .unit => .token .unit
  | .put => .token (.colons 0)
  | .get => .token (.colons 1)
  | .random => .token (.colons 2)
  | .pending number => .pending number

/-- List one node, in front of the pieces already listed, of which the last is
first, and go on with its children. -/
def visit (arena : Program) (marked : Option Ref) (task : Task) (listed : List Piece) :
    Except Fault (List Task × List Piece) := do
  match task with
  | .closing => return ([], .closing :: listed)
  | .term ref =>
      match ← arena.read ref with
      | .lam body => return ([.term body], .token .lam :: listed)
      | .app function argument =>
          if marked = some ref then
            return ([.term function, .term argument, .closing],
              .token .app :: .opening :: listed)
          else
            return ([.term function, .term argument], .token .app :: listed)
      | .var index => return ([], .token (.dots index) :: listed)
      | .leaf atom => return ([], atomPiece atom :: listed)

/-- The pieces of the term at a root. -/
def pieces (fuel : Nat) (arena : Program) (root : Ref) (marked : Option Ref) :
    Except Fault (List Piece) := do
  let listed ← traverse (visit arena marked) fuel [.term root] []
  return listed.reverse

end Listing

/-- The text of the term at a root, with the marked application in brackets. Without
a root there is no text. -/
def Arena.listing (fuel : Nat) (arena : Program) (root marked : Option Ref) :
    Except Fault String := do
  match root with
  | none => return ""
  | some root => return Listing.writeAll "" none (← Listing.pieces fuel arena root marked)

theorem Arena.listing_mono {fuel fuel' : Nat} (hfuel : fuel ≤ fuel') (arena : Program)
    (root marked : Option Ref) :
    Refines (arena.listing fuel root marked) (arena.listing fuel' root marked) := by
  cases root with
  | none => exact .refl _
  | some root =>
      exact .bind (.bind (traverse_mono (fun _ _ => .refl _) hfuel _ _) fun _ => .refl _)
        fun _ => .refl _

end LambdaMachine
