import LambdaMachine.Proofs.Rereading
import LambdaMachine.Proofs.Reductions

/-!
# Alike machines

Two machines are alike if they are at the same place of the same term, whatever slots their
arenas use for it. The text of a program, with the redex in brackets, is made of the terms
alone (`pieces_marked`), so alike machines have the same text (`exists_listing`).
-/

namespace LambdaMachine

open Layout (Layer within)

/-! ### The text of a position -/

/-- The pieces of a term without a mark. -/
def Term.pieces : Term Atom → List Listing.Piece
  | .lam body => .token .lam :: body.pieces
  | .app function argument => .token .app :: (function.pieces ++ argument.pieces)
  | .var index => [.token (.dots index)]
  | .leaf atom => [Listing.atomPiece atom]

/-- The pieces of an application around those of its part at the position. -/
def Term.Layer.pieces : Term.Layer Atom → List Listing.Piece → List Listing.Piece
  | .function right, inner => .token .app :: (inner ++ right.pieces)
  | .argument left, inner => .token .app :: (left.pieces ++ inner)

theorem Layout.pieces_none (layout : Layout Atom) : layout.pieces none = layout.term.pieces := by
  induction layout with
  | lam ref body ih => simp only [pieces, term, Term.pieces, ih]
  | app ref function argument ihf iha =>
      simp only [pieces, term, Term.pieces, ihf, iha, reduceCtorEq, if_false]
  | var ref index => rfl
  | leaf ref atom => rfl

namespace Arena.IsTree

variable {arena : Program} {layer : Layer Atom} {layers : List (Layer Atom)}
  {inner : Layout Atom} {marked : Ref}

theorem pieces_around (htree : arena.IsTree (layer.around inner)) (hmarked : marked ∈ inner.refs) :
    (layer.around inner).pieces (some marked) = layer.term.pieces (inner.pieces (some marked)) := by
  obtain ⟨_, hparent, _, hdisjoint, _⟩ := isTree_around.mp htree
  have hne : some marked ≠ some layer.parent := fun heq => hparent (Option.some.inj heq ▸ hmarked)
  have hother : layer.other.pieces (some marked) = layer.other.term.pieces := by
    rw [Layout.pieces_of_notMem (hdisjoint hmarked), Layout.pieces_none]
  cases layer with
  | function parent right =>
      exact (if_neg hne).trans (congrArg (fun pieces => _ :: (_ ++ pieces)) hother)
  | argument parent left =>
      exact (if_neg hne).trans (congrArg (fun pieces => _ :: (pieces ++ _)) hother)

/-- The layers around a mark add pieces that their terms alone decide. -/
theorem pieces_within (htree : arena.IsTree (within layers inner)) (hmarked : marked ∈ inner.refs) :
    (within layers inner).pieces (some marked) =
      (layers.map Layer.term).foldl (fun pieces layer => layer.pieces pieces)
        (inner.pieces (some marked)) := by
  induction layers generalizing inner with
  | nil => rfl
  | cons layer layers ih =>
      have hmarked' : marked ∈ (layer.around inner).refs :=
        (layer.mem_refs_around inner marked).mpr (List.mem_append_left _ hmarked)
      rw [within, ih htree hmarked', (htree.of_within layers).pieces_around hmarked]
      rfl

/-- The pieces of a tree at an application in it. -/
theorem pieces_marked (htree : arena.IsTree (within layers inner))
    (happ : inner.term.isApp = true) :
    (within layers inner).pieces (some inner.root) =
      (layers.map Layer.term).foldl (fun pieces layer => layer.pieces pieces)
        (.opening :: (inner.term.pieces ++ [.closing])) := by
  rw [htree.pieces_within inner.root_mem_refs, (htree.of_within layers).pieces_root happ,
    Layout.pieces_none]

end Arena.IsTree

/-! ### Alike machines -/

/-- Two machines are at the same place of the same term, or have ended with the same text. -/
inductive Machine.Alike (machine machine' : Machine) : Prop where
  | reducing {layers layers' redex redex'} (hat : machine.cursor.At machine.arena layers redex)
      (hat' : machine'.cursor.At machine'.arena layers' redex')
      (hlayers : layers.map Layer.term = layers'.map Layer.term)
      (hterm : redex.term = redex'.term) : Alike machine machine'
  | ended {text} (hredex : machine.cursor.redex = none) (hredex' : machine'.cursor.redex = none)
      (hlisting : Finishes (fun fuel => machine.listing fuel) text)
      (hlisting' : Finishes (fun fuel => machine'.listing fuel) text) : Alike machine machine'

theorem Cursor.At.finishes_listing {machine : Machine} {layers : List (Layer Atom)}
    {redex : Layout Atom} (hat : machine.cursor.At machine.arena layers redex) :
    Finishes (fun fuel => machine.listing fuel)
      (Listing.writeAll "" none ((layers.map Layer.term).foldl
        (fun pieces layer => layer.pieces pieces)
        (.opening :: (redex.term.pieces ++ [.closing])))) := by
  have hlisting := hat.keeps.isTree.holds.finishes_listing (some redex.root)
  rw [hat.keeps.isTree.pieces_marked hat.isApp] at hlisting
  simpa only [Machine.listing, hat.keeps.root_eq, hat.redex_eq] using hlisting

theorem Machine.finishes_listing {machine : Machine} {whole : Layout Atom}
    (hholds : machine.arena.Holds whole) (hroot : machine.cursor.root = some whole.root)
    (hredex : machine.cursor.redex = none) :
    Finishes (fun fuel => machine.listing fuel)
      (Listing.writeAll "" none whole.term.pieces) := by
  have hlisting := hholds.finishes_listing none
  rw [Layout.pieces_none] at hlisting
  simpa only [Machine.listing, hroot, hredex] using hlisting

namespace Machine.Alike

variable {machine machine' : Machine}

theorem symm (h : machine.Alike machine') : machine'.Alike machine := by
  cases h with
  | reducing hat hat' hlayers hterm => exact .reducing hat' hat hlayers.symm hterm.symm
  | ended hredex hredex' hlisting hlisting' => exact .ended hredex' hredex hlisting' hlisting

theorem ended_eq (h : machine.Alike machine') : machine'.ended = machine.ended := by
  cases h with
  | reducing hat hat' _ _ => simp [Machine.ended, hat.redex_eq, hat'.redex_eq]
  | ended hredex hredex' _ _ => simp [Machine.ended, hredex, hredex']

/-- Alike machines have the same text. -/
theorem exists_listing (h : machine.Alike machine') :
    ∃ text, Finishes (fun fuel => machine.listing fuel) text ∧
      Finishes (fun fuel => machine'.listing fuel) text := by
  cases h with
  | ended _ _ hlisting hlisting' => exact ⟨_, hlisting, hlisting'⟩
  | reducing hat hat' hlayers hterm =>
      refine ⟨_, hat.finishes_listing, ?_⟩
      rw [hlayers, hterm]
      exact hat'.finishes_listing

theorem empty : Machine.empty.Alike .empty :=
  .ended rfl rfl (.pure "") (.pure "")

/-- Two machines that hold the same term and have no redex are alike. -/
theorem of_holds {whole whole' : Layout Atom} (hholds : machine.arena.Holds whole)
    (hroot : machine.cursor.root = some whole.root) (hredex : machine.cursor.redex = none)
    (hholds' : machine'.arena.Holds whole') (hroot' : machine'.cursor.root = some whole'.root)
    (hredex' : machine'.cursor.redex = none) (hterm : whole.term = whole'.term) :
    machine.Alike machine' :=
  .ended hredex hredex' (Machine.finishes_listing hholds hroot hredex)
    (hterm ▸ Machine.finishes_listing hholds' hroot' hredex')

end Machine.Alike

end LambdaMachine
