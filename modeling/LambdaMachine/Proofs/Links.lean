import LambdaMachine.Proofs.Forests
import LambdaMachine.Proofs.Layers

/-!
# The links of a tree

What a tree is can also be said slot by slot: what is below its root are its slots, every
slot but the root is linked from one place only, and a variable counts fewer binders than
there are above it. An arena that holds nothing but a tree has as many live slots as the
tree has nodes.
-/

namespace LambdaMachine

open Layout (Layer within)

variable {α : Type}

namespace Layout

/-- The links of a layout, each with the slot that it leads to. -/
def links : Layout α → List (Link × Ref)
  | lam ref body => (⟨ref, .body⟩, body.root) :: body.links
  | app ref function argument =>
      ((⟨ref, .function⟩, function.root) :: function.links) ++
        (⟨ref, .argument⟩, argument.root) :: argument.links
  | var _ _ => []
  | leaf _ _ => []

/-- Every slot but the root is led to by one link. -/
theorem refs_eq (layout : Layout α) :
    layout.refs = layout.root :: layout.links.map Prod.snd := by
  induction layout with
  | lam ref body ih => rw [refs, ih]; rfl
  | app ref function argument ihf iha => rw [refs, ihf, iha]; simp [root, links]
  | var ref index => rfl
  | leaf ref value => rfl

theorem parent_mem_refs (layout : Layout α) {link : Link} {ref : Ref}
    (hmem : (link, ref) ∈ layout.links) : link.parent ∈ layout.refs := by
  induction layout with
  | lam parent body ih =>
      rcases List.mem_cons.mp hmem with heq | hmem
      · cases heq
        exact List.mem_cons_self
      · exact List.mem_cons_of_mem _ (ih hmem)
  | app parent function argument ihf iha =>
      simp only [links, List.cons_append, List.mem_cons, List.mem_append] at hmem
      rcases hmem with heq | hmem | heq | hmem
      · cases heq
        exact List.mem_cons_self
      · exact List.mem_cons_of_mem _ (List.mem_append_left _ (ihf hmem))
      · cases heq
        exact List.mem_cons_self
      · exact List.mem_cons_of_mem _ (List.mem_append_right _ (iha hmem))
  | var parent index => cases hmem
  | leaf parent value => cases hmem

/-- A part of a layout that has some number of abstractions above it. -/
inductive Part (layout : Layout α) : Nat → Layout α → Prop where
  | whole : Part layout 0 layout
  | body {depth ref body} (hpart : Part layout depth (.lam ref body)) :
      Part layout (depth + 1) body
  | function {depth ref function argument}
      (hpart : Part layout depth (.app ref function argument)) : Part layout depth function
  | argument {depth ref function argument}
      (hpart : Part layout depth (.app ref function argument)) : Part layout depth argument

namespace Part

variable {layout part : Layout α} {depth : Nat}

theorem refs_sublist (hpart : layout.Part depth part) : part.refs.Sublist layout.refs := by
  induction hpart with
  | whole => exact .refl _
  | body _ ih => exact (List.sublist_cons_self _ _).trans ih
  | function _ ih =>
      exact ((List.sublist_append_left _ _).trans (List.sublist_cons_self _ _)).trans ih
  | argument _ ih =>
      exact ((List.sublist_append_right _ _).trans (List.sublist_cons_self _ _)).trans ih

theorem refs_subset (hpart : layout.Part depth part) : part.refs ⊆ layout.refs :=
  hpart.refs_sublist.subset

/-- What passes from a term to its parts passes from a layout to its parts. -/
theorem of_term {P : Term α → Prop} (hlam : ∀ body, P (.lam body) → P body)
    (happ : ∀ function argument, P (.app function argument) → P function ∧ P argument)
    (hpart : layout.Part depth part) (h : P layout.term) : P part.term := by
  induction hpart with
  | whole => exact h
  | body _ ih => exact hlam _ ih
  | function _ ih => exact (happ _ _ ih).1
  | argument _ ih => exact (happ _ _ ih).2

theorem links_subset (hpart : layout.Part depth part) : part.links ⊆ layout.links := by
  induction hpart with
  | whole => exact List.Subset.refl _
  | body _ ih => exact fun _ hmem => ih (List.mem_cons_of_mem _ hmem)
  | function _ ih => exact fun _ hmem => ih (List.mem_cons_of_mem _ (List.mem_append_left _ hmem))
  | argument _ ih =>
      exact fun _ hmem =>
        ih (List.mem_cons_of_mem _ (List.mem_append_right _ (List.mem_cons_of_mem _ hmem)))

theorem closedUnder (hpart : layout.Part depth part) (hclosed : layout.term.Closed) :
    part.term.ClosedUnder depth := by
  induction hpart with
  | whole => exact hclosed
  | body _ ih => exact ih
  | function _ ih => exact ih.1
  | argument _ ih => exact ih.2

end Part

end Layout

namespace Arena

/-- From the root one comes to a slot, and through this many abstractions. -/
inductive Below (arena : Arena α) (root : Ref) : Nat → Ref → Prop where
  | root : Below arena root 0 root
  | body {depth parent body} (habove : Below arena root depth parent)
      (hnode : arena.node? parent = some (.lam body)) : Below arena root (depth + 1) body
  | function {depth parent function argument} (habove : Below arena root depth parent)
      (hnode : arena.node? parent = some (.app function argument)) :
      Below arena root depth function
  | argument {depth parent function argument} (habove : Below arena root depth parent)
      (hnode : arena.node? parent = some (.app function argument)) :
      Below arena root depth argument

/-- The path leads from the root to a slot. -/
def Leads (arena : Arena α) (root : Ref) : Path → Ref → Prop
  | [], ref => ref = root
  | link :: path, ref =>
      arena.child link.parent link.side = .ok ref ∧ arena.Leads root path link.parent

variable {arena : Arena α} {layout : Layout α} {root ref : Ref} {depth : Nat}

/-! ### What is below the root -/

/-- All slots of a layout are below its root, with the abstractions of the layout on the
way. -/
theorem Holds.below (hholds : arena.Holds layout) (habove : arena.Below root depth layout.root)
    (hmem : ref ∈ layout.refs) : ∃ depth', arena.Below root depth' ref := by
  induction layout generalizing depth with
  | lam parent body ih =>
      rcases List.mem_cons.mp hmem with rfl | hmem
      · exact ⟨depth, habove⟩
      · exact ih hholds.2 (.body habove hholds.1) hmem
  | app parent function argument ihf iha =>
      rcases List.mem_cons.mp hmem with rfl | hmem
      · exact ⟨depth, habove⟩
      · rcases List.mem_append.mp hmem with hmem | hmem
        · exact ihf hholds.2.1 (.function habove hholds.1) hmem
        · exact iha hholds.2.2 (.argument habove hholds.1) hmem
  | var parent index =>
      obtain rfl := List.mem_singleton.mp hmem
      exact ⟨depth, habove⟩
  | leaf parent value =>
      obtain rfl := List.mem_singleton.mp hmem
      exact ⟨depth, habove⟩

theorem Holds.of_part {part : Layout α} (hholds : arena.Holds layout)
    (hpart : layout.Part depth part) : arena.Holds part := by
  induction hpart with
  | whole => exact hholds
  | body _ ih => exact ih.2
  | function _ ih => exact ih.2.1
  | argument _ ih => exact ih.2.2

theorem IsTree.of_part {part : Layout α} (htree : arena.IsTree layout)
    (hpart : layout.Part depth part) : arena.IsTree part :=
  ⟨htree.holds.of_part hpart, htree.nodup.sublist hpart.refs_sublist⟩

/-- What is below the root of a layout is the root of a part of it. -/
theorem Holds.exists_part (hholds : arena.Holds layout)
    (hbelow : arena.Below layout.root depth ref) :
    ∃ part, layout.Part depth part ∧ part.root = ref := by
  induction hbelow with
  | root => exact ⟨layout, .whole, rfl⟩
  | body _ hnode ih =>
      obtain ⟨part, hpart, rfl⟩ := ih
      rw [(hholds.of_part hpart).node?_root] at hnode
      cases part with
      | lam _ body => exact ⟨body, .body hpart, by simpa [Layout.node] using hnode⟩
      | _ => simp [Layout.node] at hnode
  | function _ hnode ih =>
      obtain ⟨part, hpart, rfl⟩ := ih
      rw [(hholds.of_part hpart).node?_root] at hnode
      cases part with
      | app _ left right =>
          simp only [Layout.node, Option.some.injEq, Node.app.injEq] at hnode
          exact ⟨left, .function hpart, hnode.1⟩
      | _ => simp [Layout.node] at hnode
  | argument _ hnode ih =>
      obtain ⟨part, hpart, rfl⟩ := ih
      rw [(hholds.of_part hpart).node?_root] at hnode
      cases part with
      | app _ left right =>
          simp only [Layout.node, Option.some.injEq, Node.app.injEq] at hnode
          exact ⟨right, .argument hpart, hnode.2⟩
      | _ => simp [Layout.node] at hnode

theorem Holds.mem_refs_iff_below (hholds : arena.Holds layout) :
    ref ∈ layout.refs ↔ ∃ depth, arena.Below layout.root depth ref := by
  constructor
  · exact hholds.below .root
  · rintro ⟨depth, hbelow⟩
    obtain ⟨part, hpart, rfl⟩ := hholds.exists_part hbelow
    exact hpart.refs_subset part.root_mem_refs

/-- A variable of a closed layout counts fewer binders than are above it. -/
theorem Holds.index_lt (hholds : arena.Holds layout) (hclosed : layout.term.Closed)
    (hbelow : arena.Below layout.root depth ref) {index : Nat}
    (hnode : arena.node? ref = some (.var index)) : index < depth := by
  obtain ⟨part, hpart, rfl⟩ := hholds.exists_part hbelow
  rw [(hholds.of_part hpart).node?_root] at hnode
  have hunder := hpart.closedUnder hclosed
  cases part with
  | var ref index' =>
      obtain rfl : index' = index := by simpa [Layout.node] using hnode
      exact hunder
  | _ => simp [Layout.node] at hnode

/-! ### What links to a slot -/

theorem Holds.child_of_mem_links (hholds : arena.Holds layout) {link : Link}
    (hmem : (link, ref) ∈ layout.links) : arena.child link.parent link.side = .ok ref := by
  induction layout with
  | lam parent body ih =>
      rcases List.mem_cons.mp hmem with heq | hmem
      · cases heq
        exact child_eq_ok_iff.mpr ⟨_, hholds.1, rfl⟩
      · exact ih hholds.2 hmem
  | app parent function argument ihf iha =>
      obtain ⟨hnode, hfunction, hargument⟩ := hholds
      rcases List.mem_append.mp hmem with hmem | hmem
      · rcases List.mem_cons.mp hmem with heq | hmem
        · cases heq
          exact child_eq_ok_iff.mpr ⟨_, hnode, rfl⟩
        · exact ihf hfunction hmem
      · rcases List.mem_cons.mp hmem with heq | hmem
        · cases heq
          exact child_eq_ok_iff.mpr ⟨_, hnode, rfl⟩
        · exact iha hargument hmem
  | var parent index => cases hmem
  | leaf parent value => cases hmem

/-- A link from a slot of the layout is a link of the layout. -/
theorem Holds.mem_links_of_child (hholds : arena.Holds layout) {link : Link}
    (hparent : link.parent ∈ layout.refs)
    (hchild : arena.child link.parent link.side = .ok ref) : (link, ref) ∈ layout.links := by
  obtain ⟨depth, hbelow⟩ := hholds.below .root hparent
  obtain ⟨part, hpart, hroot⟩ := hholds.exists_part hbelow
  obtain ⟨node, hnode, hside⟩ := child_eq_ok_iff.mp hchild
  obtain ⟨parent, side⟩ := link
  obtain rfl : part.root = parent := hroot
  rw [(hholds.of_part hpart).node?_root] at hnode
  cases hnode
  apply hpart.links_subset
  cases part <;> cases side <;> cases hside <;> simp [Layout.links, Layout.root]

/-- The links from slots of the layout are the links of the layout. -/
theorem Holds.child_iff_mem_links (hholds : arena.Holds layout) {link : Link} :
    link.parent ∈ layout.refs ∧ arena.child link.parent link.side = .ok ref ↔
      (link, ref) ∈ layout.links := by
  constructor
  · rintro ⟨hparent, hchild⟩
    exact hholds.mem_links_of_child hparent hchild
  · intro hmem
    exact ⟨layout.parent_mem_refs hmem, hholds.child_of_mem_links hmem⟩

/-- In a tree every slot but the root is linked from one slot of the tree, at one side. -/
theorem IsTree.existsUnique_link (htree : arena.IsTree layout) (hmem : ref ∈ layout.refs)
    (hroot : ref ≠ layout.root) :
    ∃! link : Link, link.parent ∈ layout.refs ∧
      arena.child link.parent link.side = .ok ref := by
  simp only [htree.holds.child_iff_mem_links]
  have hnodup := htree.nodup
  rw [layout.refs_eq] at hmem hnodup
  obtain ⟨⟨link, _⟩, hlink, rfl⟩ :=
    List.mem_map.mp ((List.mem_cons.mp hmem).resolve_left hroot)
  refine ⟨link, hlink, fun other hother => ?_⟩
  have heq := List.inj_on_of_nodup_map (List.nodup_cons.mp hnodup).2 hother hlink rfl
  exact congrArg Prod.fst heq

section Alone

variable (htree : arena.IsTree layout)
  (hlive : ∀ ref, (arena.node? ref).isSome → ref ∈ layout.refs)
include htree hlive

theorem child_iff_mem_links {link : Link} :
    arena.child link.parent link.side = .ok ref ↔ (link, ref) ∈ layout.links := by
  constructor
  · intro hchild
    obtain ⟨node, hnode, _⟩ := child_eq_ok_iff.mp hchild
    exact htree.holds.mem_links_of_child (hlive _ (by simp [hnode])) hchild
  · exact htree.holds.child_of_mem_links

/-- If the arena holds the tree only, every slot but the root is linked from one place. -/
theorem existsUnique_link (hsome : (arena.node? ref).isSome) (hroot : ref ≠ layout.root) :
    ∃! link : Link, arena.child link.parent link.side = .ok ref := by
  obtain ⟨link, ⟨_, hlink⟩, hunique⟩ := htree.existsUnique_link (hlive ref hsome) hroot
  refine ⟨link, hlink, fun other hother => hunique other ⟨?_, hother⟩⟩
  obtain ⟨node, hnode, _⟩ := child_eq_ok_iff.mp hother
  exact hlive _ (by simp [hnode])

/-- The root is linked from nowhere. -/
theorem child_ne_root (link : Link) : arena.child link.parent link.side ≠ .ok layout.root := by
  rw [Ne, child_iff_mem_links htree hlive]
  intro hmem
  have hnodup := htree.nodup
  rw [layout.refs_eq] at hnodup
  exact (List.nodup_cons.mp hnodup).1 (List.mem_map.mpr ⟨_, hmem, rfl⟩)

/-- The arena has as many live slots as the tree has nodes. -/
theorem live_eq_size (hwf : arena.WellFormed) : arena.live = layout.term.size := by
  rw [hwf.live_eq_length htree.nodup fun ref => ⟨htree.holds.isSome_of_mem, hlive ref⟩,
    layout.length_refs]

end Alone

/-! ### The path to a position -/

variable {layers : List (Layer α)} {layer : Layer α}

/-- The links of the layers lead to the position inside them. -/
theorem IsTree.leads_within (htree : arena.IsTree (within layers layout)) :
    arena.Leads (within layers layout).root (layers.map Layer.link) layout.root := by
  induction layers generalizing layout with
  | nil => rfl
  | cons layer layers ih =>
      have hnode := (isTree_around.mp (htree.of_within layers)).1
      have habove := ih htree
      rw [layer.root_around, ← layer.parent_link] at habove
      rw [← layer.parent_link] at hnode
      exact ⟨child_eq_ok_iff.mpr ⟨_, hnode, layer.child?_node _⟩, habove⟩

/-- Every layer is in the arena, with something at the position. -/
theorem IsTree.exists_around (htree : arena.IsTree (within layers layout))
    (hmem : layer ∈ layers) : ∃ inner, arena.IsTree (layer.around inner) := by
  induction layers generalizing layout with
  | nil => cases hmem
  | cons first layers ih =>
      rcases List.mem_cons.mp hmem with rfl | hmem
      · exact ⟨layout, htree.of_within layers⟩
      · exact ih htree hmem

end Arena

end LambdaMachine
