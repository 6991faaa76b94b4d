import LambdaMachine.Arena.Layout
import LambdaMachine.Proofs.Finishing
import LambdaMachine.Source.Listing

/-!
# What a listing shows

The pieces of a term are found by going through its layout. A listing of an arena that
holds the layout finishes with these pieces, whether the layout shares nodes or not.
-/

namespace LambdaMachine

open Listing

/-- The pieces of a layout from left to right, with the marked application in brackets. -/
def Layout.pieces (marked : Option Ref) : Layout Atom → List Piece
  | .lam _ body => .token .lam :: body.pieces marked
  | .app ref function argument =>
      if marked = some ref then
        .opening :: .token .app :: (function.pieces marked ++ argument.pieces marked ++ [.closing])
      else .token .app :: (function.pieces marked ++ argument.pieces marked)
  | .var _ index => [.token (.dots index)]
  | .leaf _ atom => [atomPiece atom]

namespace Arena

variable {arena : Program} {layout : Layout Atom}

/-- The pieces of a layout are listed in front of those listed before. -/
theorem Holds.walks_listing (hholds : arena.Holds layout) (marked : Option Ref)
    (listed : List Piece) :
    Walks (fun _ => visit arena marked) [.term layout.root] listed
      ((layout.pieces marked).reverse ++ listed) := by
  have hread := hholds.read_root
  induction layout generalizing listed with
  | lam ref body ih =>
      have hvisit : Finishes (fun _ => visit arena marked (.term ref) listed)
          ([.term body.root], .token .lam :: listed) := .of_eq fun _ => by
        simp only [visit, show arena.read ref = _ from hread, Layout.node, bind, Except.bind, pure,
          Except.pure]
      have hwalk := ih hholds.2 (.token .lam :: listed) hholds.2.read_root
      simpa [Layout.pieces, Layout.root] using Walks.of_visit hvisit hwalk
  | app ref function argument ihf iha =>
      have hfunction := fun listed => ihf hholds.2.1 listed hholds.2.1.read_root
      have hargument := fun listed => iha hholds.2.2 listed hholds.2.2.read_root
      by_cases hmarked : marked = some ref
      · have hvisit : Finishes (fun _ => visit arena marked (.term ref) listed)
            ([.term function.root, .term argument.root, .closing],
              .token .app :: .opening :: listed) := .of_eq fun _ => by
          simp only [visit, show arena.read ref = _ from hread, Layout.node, if_pos hmarked, bind,
            Except.bind, pure, Except.pure]
        have hclosing : ∀ listed, Walks (fun _ => visit arena marked) [.closing] listed
            (.closing :: listed) := fun listed => .leaf (.of_eq fun _ => rfl)
        have hwalk := Walks.of_visit hvisit
          (.append (hfunction _) (.append (hargument _) (hclosing _)))
        simpa [Layout.pieces, Layout.root, hmarked] using hwalk
      · have hvisit : Finishes (fun _ => visit arena marked (.term ref) listed)
            ([.term function.root, .term argument.root], .token .app :: listed) :=
          .of_eq fun _ => by
            simp only [visit, show arena.read ref = _ from hread, Layout.node, if_neg hmarked, bind,
              Except.bind, pure, Except.pure]
        have hwalk := Walks.of_visit hvisit (.pair (hfunction _) (hargument _))
        simpa [Layout.pieces, Layout.root, hmarked] using hwalk
  | var ref index =>
      refine .leaf (.of_eq fun _ => ?_)
      simp only [visit, hread, Layout.node, bind, Except.bind, pure, Except.pure]
      rfl
  | leaf ref atom =>
      refine .leaf (.of_eq fun _ => ?_)
      simp only [visit, hread, Layout.node, bind, Except.bind, pure, Except.pure]
      rfl

/-- A listing finishes with the pieces of the layout at its root. -/
theorem Holds.finishes_listing (hholds : arena.Holds layout) (marked : Option Ref) :
    Finishes (fun fuel => arena.listing fuel (some layout.root) marked)
      (writeAll "" none (layout.pieces marked)) := by
  have hwalk := (hholds.walks_listing marked []).finishes
  have hpieces : Finishes (fun fuel => pieces fuel arena layout.root marked)
      (layout.pieces marked) := by
    refine hwalk.bind (.of_eq fun _ => ?_)
    simp [pure, Except.pure]
  exact hpieces.bind (.pure _)

end Arena

end LambdaMachine
