import LambdaMachine.Machine.Step
import LambdaMachine.Proofs.Layers
import LambdaMachine.Term.Substitution

/-!
# Where a machine stands

A machine that holds a program stands at a redex inside layers of applications, or is
done with a value. In both cases its arena holds the tree of the program and nothing
else, no variable of the program is free, and the marker of a failed output does not
occur.

A redex can be exchanged for any tree that has been built from its slots. If that is a
value the cursor goes up, which is how an evaluation resumes (`Cursor.At.shows_up`).
-/

namespace LambdaMachine

open Layout (Layer within)

/-! ### Sound terms -/

namespace Term

/-- The marker of an operand that was no numeral does not occur. -/
def Unmarked : Term Atom → Prop
  | lam body => body.Unmarked
  | app function argument => function.Unmarked ∧ argument.Unmarked
  | var _ => True
  | leaf atom => atom ≠ .pending none

/-- No variable is free, and the marker does not occur. -/
def Sound (term : Term Atom) : Prop :=
  term.Closed ∧ term.Unmarked

theorem sound_app {function argument : Term Atom} :
    (app function argument).Sound ↔ function.Sound ∧ argument.Sound :=
  and_and_and_comm

theorem Unmarked.replace {body argument : Term Atom} (hbody : body.Unmarked)
    (hargument : argument.Unmarked) (depth : Nat) : (body.replace depth argument).Unmarked := by
  induction body generalizing depth with
  | lam body ih => exact ih hbody (depth + 1)
  | app function operand ihf iho => exact ⟨ihf hbody.1 depth, iho hbody.2 depth⟩
  | var index =>
      rw [Term.replace]
      split
      · exact hargument
      · trivial
  | leaf atom => exact hbody

theorem Sound.contract {body argument : Term Atom} (hbody : (lam body).Sound)
    (hargument : argument.Sound) : (body.contract argument).Sound := by
  refine ⟨hbody.1.contract hargument.1, ?_⟩
  rw [Term.contract, ← replace_eq_subst hargument.1 hbody.1]
  exact Unmarked.replace (show body.Unmarked from hbody.2) hargument.2 0

theorem sound_numeral (n : Nat) : (numeral n : Term Atom).Sound := by
  have hbody : ∀ k, (Nat.repeat (app (var 1)) k (var 0) : Term Atom).Unmarked := by
    intro k
    induction k with
    | zero => trivial
    | succ k ih => exact ⟨trivial, ih⟩
  exact ⟨closed_numeral n, hbody n⟩

theorem sound_leaf {atom : Atom} (hatom : atom ≠ .pending none) : (leaf atom : Term Atom).Sound :=
  ⟨trivial, hatom⟩

end Term

/-! ### Positions -/

/-- The arena holds the tree at the root and nothing else. -/
structure Arena.Contains (arena : Program) (root : Option Ref) (whole : Layout Atom) : Prop where
  wellFormed : arena.WellFormed
  isTree : arena.IsTree whole
  live : ∀ ref, (arena.node? ref).isSome → ref ∈ whole.refs
  root_eq : root = some whole.root

/-- The arena holds the tree at the root and nothing else, and its term is sound. -/
structure Arena.Keeps (arena : Program) (root : Option Ref) (whole : Layout Atom) : Prop
    extends arena.Contains root whole where
  sound : whole.term.Sound

namespace Cursor

/-- The cursor stands at a redex inside layers. Where it went down to an argument, the
function part beside it is a value. -/
structure At (cursor : Cursor) (arena : Program) (layers : List (Layer Atom))
    (redex : Layout Atom) : Prop where
  keeps : arena.Keeps cursor.root (.within layers redex)
  redex_eq : cursor.redex = some redex.root
  path_eq : cursor.path = layers.map Layer.link
  isApp : redex.term.isApp = true
  waiting : ∀ layer ∈ layers, layer.link.side = .argument → layer.other.term.isApp = false

/-- The cursor is done with a value. -/
structure Done (cursor : Cursor) (arena : Program) (whole : Layout Atom) : Prop where
  keeps : arena.Keeps cursor.root whole
  redex_eq : cursor.redex = none
  path_eq : cursor.path = []
  value : whole.term.isApp = false

/-- The cursor stands where an evaluation is at this stage. After a failure the program can
still be listed. -/
def Shows (cursor : Cursor) (arena : Program) : Term.Stage Atom Failure → Prop
  | .going layers term => ∃ layers' redex, cursor.At arena layers' redex ∧
      layers'.map Layer.term = layers ∧ redex.term = term
  | .ended (.ok value) => ∃ whole, cursor.Done arena whole ∧ whole.term = value
  | .ended (.error _) => ∃ whole, arena.Holds whole ∧ cursor.root = some whole.root

variable {cursor : Cursor} {arena arena₁ arena₂ : Program} {layers : List (Layer Atom)}
  {redex result : Layout Atom} {root : Option Ref}

theorem At.sound (hat : cursor.At arena layers redex) :
    redex.term.Sound ∧ ∀ layer ∈ layers, layer.term.given.Sound := by
  have hsound := hat.keeps.sound
  rw [Layout.term_within, Term.within_iff fun _ _ => Term.sound_app] at hsound
  exact ⟨hsound.1, fun layer hmem => hsound.2 _ (List.mem_map_of_mem hmem)⟩

/-- A redex is exchanged for a tree that was built from its slots. -/
theorem At.exists_replace (hat : cursor.At arena layers redex)
    (hexchange : arena.Exchange redex.refs result.refs arena₁) (hresult : arena₁.IsTree result) :
    ∃ arena₂ root, cursor.replace arena₁ result.root = .ok (arena₂, { cursor with root }) ∧
      arena₂.Contains root (.within layers result) := by
  obtain ⟨hwf, htree, hlive, hroot⟩ := hat.keeps.toContains
  have hpath := hat.path_eq
  obtain ⟨_, _, _⟩ := cursor
  subst hroot hpath
  have hrest : arena.Exchange redex.refs (result.refs ++ []) arena₁ := by rwa [List.append_nil]
  obtain ⟨arena₂, hplug, htree', hexchange'⟩ := htree.exists_plug hrest hresult
  rw [List.append_nil] at hexchange'
  refine ⟨arena₂, some (within layers result).root, ?_, hexchange'.wellFormed hwf, htree', ?_, rfl⟩
  · cases layers with
    | nil =>
        cases hplug
        rfl
    | cons layer layers =>
        change arena₁.setChild layer.link.parent layer.link.side result.root = .ok arena₂ at hplug
        have hsame := Layout.root_within_cons layer layers result redex
        simp only [replace, List.map_cons, hplug, hsame, bind, Except.bind, pure, Except.pure]
  · intro ref hsome
    have hlive' : ∀ ref, (arena.node? ref).isSome → ref ∈ (within layers redex).refs ++ [] := by
      simpa using hlive
    simpa using hexchange'.live_subset hlive' hsome

theorem At.keeps_of_contains (hat : cursor.At arena layers redex)
    (hcontains : arena₂.Contains root (.within layers result)) (hsound : result.term.Sound) :
    arena₂.Keeps root (.within layers result) where
  toContains := hcontains
  sound := by
    rw [Layout.term_within, Term.within_iff fun _ _ => Term.sound_app]
    exact ⟨hsound, List.forall_mem_map.mpr hat.sound.2⟩

/-- With a value in the place of the redex the cursor goes up. -/
theorem At.shows_up (hat : cursor.At arena layers redex)
    (hkeeps : arena₂.Keeps root (.within layers result)) (hvalue : result.term.isApp = false) :
    ({ cursor with root } : Cursor).up.Shows arena₂
      (.resume (layers.map Layer.term) result.term) := by
  have hpath := hat.path_eq
  have hwaiting := hat.waiting
  obtain ⟨_, _, _⟩ := cursor
  subst hpath
  cases layers with
  | nil => exact ⟨result, ⟨hkeeps, rfl, rfl, hvalue⟩, rfl⟩
  | cons layer layers =>
      -- One level up the value is a part of the redex; what waits further out has not changed.
      refine ⟨layers, layer.around result, ⟨hkeeps, ?_, rfl, ?_, ?_⟩, rfl,
        layer.term_around result⟩
      · rw [layer.root_around, ← layer.parent_link]
        rfl
      · cases layer <;> rfl
      · exact fun other hmem => hwaiting other (List.mem_cons_of_mem _ hmem)

end Cursor

end LambdaMachine
