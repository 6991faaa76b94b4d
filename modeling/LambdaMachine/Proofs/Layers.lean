import LambdaMachine.Arena.Redex
import LambdaMachine.Proofs.Exchange
import LambdaMachine.Proofs.Stages

/-!
# Positions in a tree

A position in a tree is given by the applications around it, each with its slot and its
other part. The path to the position is the links of these layers, and the tree with
another subtree at the position differs in the innermost link only, so putting a subtree
into place is local (`IsTree.exists_plug`).
-/

namespace LambdaMachine

variable {α : Type}

/-- An application around a position, which is one of its parts; the other part is
given. -/
inductive Layout.Layer (α : Type) where
  | function (parent : Ref) (argument : Layout α)
  | argument (parent : Ref) (function : Layout α)

namespace Layout

namespace Layer

/-- The slot of the application. -/
def parent : Layer α → Ref
  | .function ref _ => ref
  | .argument ref _ => ref

/-- The part beside the position. -/
def other : Layer α → Layout α
  | .function _ right => right
  | .argument _ left => left

/-- The link to the position. -/
def link : Layer α → Link
  | .function ref _ => ⟨ref, .function⟩
  | .argument ref _ => ⟨ref, .argument⟩

/-- The node of the application, if it links to this slot at the position. -/
def node (layer : Layer α) (ref : Ref) : Node α :=
  match layer with
  | .function _ right => .app ref right.root
  | .argument _ left => .app left.root ref

/-- The application with a layout at the position. -/
def around (layer : Layer α) (layout : Layout α) : Layout α :=
  match layer with
  | .function ref right => .app ref layout right
  | .argument ref left => .app ref left layout

/-- The layer without its slots. -/
def term : Layer α → Term.Layer α
  | .function _ right => .function right.term
  | .argument _ left => .argument left.term

/-- The slots that the layer adds. -/
def refs (layer : Layer α) : List Ref :=
  layer.parent :: layer.other.refs

theorem root_around (layer : Layer α) (layout : Layout α) :
    (layer.around layout).root = layer.parent := by
  cases layer <;> rfl

theorem term_around (layer : Layer α) (layout : Layout α) :
    (layer.around layout).term = layer.term.around layout.term := by
  cases layer <;> rfl

theorem mem_refs_around (layer : Layer α) (layout : Layout α) (ref : Ref) :
    ref ∈ (layer.around layout).refs ↔ ref ∈ layout.refs ++ layer.refs := by
  cases layer <;> simp [around, Layout.refs, refs, parent, other] <;> tauto

theorem withChild?_node (layer : Layer α) (ref ref' : Ref) :
    (layer.node ref).withChild? layer.link.side ref' = some (layer.node ref') := by
  cases layer <;> rfl

theorem child?_node (layer : Layer α) (ref : Ref) :
    (layer.node ref).child? layer.link.side = some ref := by
  cases layer <;> rfl

theorem parent_link (layer : Layer α) : layer.link.parent = layer.parent := by
  cases layer <;> rfl

end Layer

/-- The whole layout with a layout at the position inside the layers, the innermost
first. -/
def within : List (Layer α) → Layout α → Layout α
  | [], layout => layout
  | layer :: layers, layout => within layers (layer.around layout)

theorem term_within (layers : List (Layer α)) (layout : Layout α) :
    (within layers layout).term = Term.within (layers.map Layer.term) layout.term := by
  induction layers generalizing layout with
  | nil => rfl
  | cons layer layers ih =>
      rw [within, ih, Layer.term_around]
      rfl

/-- Inside a layer, the root of the whole does not depend on what is at the position. -/
theorem root_within_cons (layer : Layer α) (layers : List (Layer α)) (layout layout' : Layout α) :
    (within (layer :: layers) layout).root = (within (layer :: layers) layout').root := by
  induction layers generalizing layer layout layout' with
  | nil => rw [within, within, within, within, Layer.root_around, Layer.root_around]
  | cons next layers ih => exact ih next (layer.around layout) (layer.around layout')

end Layout

namespace Arena

variable {arena arena₁ : Arena α} {old new layout : Layout α} {layer : Layout.Layer α}
  {layers : List (Layout.Layer α)} {rest : List Ref}

theorem isTree_around :
    arena.IsTree (layer.around layout) ↔
      arena.node? layer.parent = some (layer.node layout.root) ∧ layer.parent ∉ layout.refs ∧
        layer.parent ∉ layer.other.refs ∧ layout.refs.Disjoint layer.other.refs ∧
        arena.IsTree layout ∧ arena.IsTree layer.other := by
  cases layer with
  | function parent right =>
      rw [Layout.Layer.around, isTree_app]
      simp only [Layout.Layer.parent, Layout.Layer.other, Layout.Layer.node]
      tauto
  | argument parent left =>
      rw [Layout.Layer.around, isTree_app, List.disjoint_comm]
      simp only [Layout.Layer.parent, Layout.Layer.other, Layout.Layer.node]
      tauto

/-- What is inside a tree is a tree. -/
theorem IsTree.of_within (layers : List (Layout.Layer α))
    (htree : arena.IsTree (.within layers layout)) : arena.IsTree layout := by
  induction layers generalizing layout with
  | nil => exact htree
  | cons layer layers ih => exact (isTree_around.mp (ih htree)).2.2.2.2.1

/-- A subtree was exchanged, and the application above it links to the new one. What was
taken besides the new subtree is `rest`. -/
theorem IsTree.around_of_exchange (htree : arena.IsTree (layer.around old))
    (hexchange :
      Exchange arena (layer.parent :: old.refs) (layer.parent :: (new.refs ++ rest)) arena₁)
    (hout : layer.parent ∉ new.refs) (hnew : arena₁.IsTree new)
    (hnode : arena₁.node? layer.parent = some (layer.node new.root)) :
    arena₁.IsTree (layer.around new) ∧
      Exchange arena (layer.around old).refs ((layer.around new).refs ++ rest) arena₁ := by
  obtain ⟨_, _, hnot, hdisjoint, _, hother⟩ := isTree_around.mp htree
  have happart : layer.other.refs.Disjoint (layer.parent :: old.refs) :=
    List.disjoint_cons_right.mpr ⟨hnot, List.disjoint_symm hdisjoint⟩
  have hdisjoint' : new.refs.Disjoint layer.other.refs := fun ref hmem hother' =>
    hexchange.disjoint hother.holds happart hother' (by simp [hmem])
  refine ⟨isTree_around.mpr ⟨hnode, hout, hnot, hdisjoint', hnew,
    hexchange.isTree hother happart⟩, ?_⟩
  refine (hexchange.frame layer.other.refs).of_mem_iff (fun ref => ?_) fun ref => ?_
  · rw [layer.mem_refs_around]
    simp only [Layout.Layer.refs, List.mem_append, List.mem_cons]
    tauto
  · rw [List.mem_append, layer.mem_refs_around]
    simp only [Layout.Layer.refs, List.mem_append, List.mem_cons]
    tauto

/-- A subtree was exchanged for one with the same root, so no link has to be changed. -/
theorem IsTree.within_of_root_eq (htree : arena.IsTree (.within layers old))
    (hexchange : Exchange arena old.refs (new.refs ++ rest) arena₁) (hnew : arena₁.IsTree new)
    (hroot : new.root = old.root) :
    arena₁.IsTree (.within layers new) ∧
      Exchange arena (Layout.within layers old).refs ((Layout.within layers new).refs ++ rest)
        arena₁ := by
  induction layers generalizing old new with
  | nil => exact ⟨hnew, hexchange⟩
  | cons layer layers ih =>
      have haround : arena.IsTree (layer.around old) := .of_within layers htree
      obtain ⟨hparent, hout, _⟩ := isTree_around.mp haround
      have hsome : (arena.node? layer.parent).isSome := by simp [hparent]
      have hnode : arena₁.node? layer.parent = some (layer.node new.root) := by
        rw [hexchange.node?_eq hsome hout, hparent, hroot]
      have hnot : layer.parent ∉ new.refs := fun hmem =>
        hexchange.not_mem_new hsome hout (List.mem_append_left _ hmem)
      obtain ⟨hnew', hexchange'⟩ :=
        haround.around_of_exchange (hexchange.cons layer.parent) hnot hnew hnode
      exact ih htree hexchange' hnew' (by rw [Layout.Layer.root_around, Layout.Layer.root_around])

/-- A subtree that was exchanged is linked at its position. -/
theorem IsTree.exists_plug (htree : arena.IsTree (.within layers old))
    (hexchange : Exchange arena old.refs (new.refs ++ rest) arena₁) (hnew : arena₁.IsTree new) :
    ∃ arena₂, arena₁.plug (layers.map Layout.Layer.link) new.root = .ok arena₂ ∧
      arena₂.IsTree (.within layers new) ∧
      Exchange arena (Layout.within layers old).refs ((Layout.within layers new).refs ++ rest)
        arena₂ := by
  cases layers with
  | nil => exact ⟨arena₁, rfl, hnew, hexchange⟩
  | cons layer layers =>
      replace htree : arena.IsTree (.within layers (layer.around old)) := htree
      have haround : arena.IsTree (layer.around old) := htree.of_within layers
      obtain ⟨hparent, hout, _⟩ := isTree_around.mp haround
      have hsome : (arena.node? layer.parent).isSome := by simp [hparent]
      have hnode : arena₁.node? layer.parent = some (layer.node old.root) := by
        rw [hexchange.node?_eq hsome hout, hparent]
      have hnot : layer.parent ∉ new.refs := fun hmem =>
        hexchange.not_mem_new hsome hout (List.mem_append_left _ hmem)
      -- Further out no link has to be changed, since the application stays in its slot.
      obtain ⟨arena₂, hset, hlink, hnode'⟩ :=
        exists_setChild hnode (layer.withChild?_node old.root new.root)
      obtain ⟨hnew', hexchange'⟩ := haround.around_of_exchange
        ((hexchange.cons layer.parent).trans (hlink.frame (new.refs ++ rest))) hnot
        (hlink.isTree hnew (List.disjoint_singleton.mpr hnot)) hnode'
      refine ⟨arena₂, ?_, htree.within_of_root_eq hexchange' hnew'
        (by rw [Layout.Layer.root_around, Layout.Layer.root_around])⟩
      change arena₁.setChild layer.link.parent layer.link.side new.root = .ok arena₂
      rw [layer.parent_link, hset]

/-! ### Going down -/

variable {ref : Ref} {function argument : Layout α}

theorem Holds.focus_function (hholds : arena.Holds (.app ref function argument))
    (happ : function.term.isApp = true) :
    arena.focus ref = .ok (.inner .function function.root) := by
  simp only [focus, read_eq_ok_iff.mpr hholds.1, hholds.2.1.isApp_root, happ, bind, Except.bind,
    pure, Except.pure, if_true]

theorem Holds.focus_argument (hholds : arena.Holds (.app ref function argument))
    (hfunction : function.term.isApp = false) (happ : argument.term.isApp = true) :
    arena.focus ref = .ok (.inner .argument argument.root) := by
  simp [focus, read_eq_ok_iff.mpr hholds.1, hholds.2.1.isApp_root, hholds.2.2.isApp_root, hfunction,
    happ, bind, Except.bind, pure, Except.pure]

theorem Holds.focus_ready (hholds : arena.Holds (.app ref function argument))
    (hfunction : function.term.isApp = false) (hargument : argument.term.isApp = false) :
    arena.focus ref = .ok (.ready function.root argument.root) := by
  simp [focus, read_eq_ok_iff.mpr hholds.1, hholds.2.1.isApp_root, hholds.2.2.isApp_root, hfunction,
    hargument, bind, Except.bind, pure, Except.pure]

end Arena

end LambdaMachine
