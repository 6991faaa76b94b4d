import LambdaMachine.Proofs.Exchange
import Mathlib.Data.List.Perm.Basic
import Mathlib.Data.List.Range

/-!
# Forests

In a forest every live slot belongs to a tree, and none to two of them. An operation that
gives up some trees and takes others leaves the rest of the forest as it is
(`Replaces.forest`). There are as many live slots as the trees have nodes
(`Forest.live_eq`), so what such an operation does to their number is known from the trees
that it gives up and takes.
-/

namespace LambdaMachine

variable {α : Type}

namespace Layout

/-- No two of the layouts have a slot in common. -/
def Apart (layouts : List (Layout α)) : Prop :=
  layouts.Pairwise fun left right => left.refs.Disjoint right.refs

theorem Apart.perm {layouts layouts' : List (Layout α)} (h : Apart layouts)
    (hperm : layouts.Perm layouts') : Apart layouts' :=
  List.Pairwise.perm h hperm fun hdisjoint => List.disjoint_symm hdisjoint

end Layout

namespace Arena

open Layout (Apart)

variable {arena arena' arena'' : Arena α} {layout : Layout α}
  {trees old new middle rest : List (Layout α)}

/-! ### Counting live slots -/

/-- If these are the live slots, each named once, there are so many. -/
theorem WellFormed.live_eq_length (hwf : arena.WellFormed) {refs : List Ref}
    (hnodup : refs.Nodup) (hlive : ∀ ref, ref ∈ refs ↔ (arena.node? ref).isSome) :
    arena.live = refs.length := by
  -- The free slots and the live ones make up all slots, each once.
  have hperm : (arena.free ++ refs).Perm (List.range arena.slots.size) := by
    refine (List.perm_ext_iff_of_nodup ?_ List.nodup_range).mpr fun ref => ?_
    · refine List.nodup_append'.mpr ⟨hwf.nodup, hnodup, fun ref hfree hmem => ?_⟩
      rw [hlive, ((hwf.mem_free_iff ref).mp hfree).2] at hmem
      cases hmem
    · rw [List.mem_append, hwf.mem_free_iff, List.mem_range, hlive]
      cases hnode : arena.node? ref with
      | none => simp
      | some node => simp [lt_size_of_node? hnode]
  have hlength := hperm.length_eq
  rw [List.length_append, List.length_range] at hlength
  unfold live
  omega

/-- The live slots in the order of their numbers. -/
def liveRefs (arena : Arena α) : List Ref :=
  (List.range arena.slots.size).filter fun ref => (arena.node? ref).isSome

theorem nodup_liveRefs (arena : Arena α) : arena.liveRefs.Nodup :=
  List.nodup_range.filter _

theorem mem_liveRefs {ref : Ref} : ref ∈ arena.liveRefs ↔ (arena.node? ref).isSome := by
  rw [liveRefs, List.mem_filter, List.mem_range, and_iff_right_iff_imp]
  intro hsome
  obtain ⟨node, hnode⟩ := Option.isSome_iff_exists.mp hsome
  exact lt_size_of_node? hnode

/-- The number of live slots grows by those taken, less those given up. -/
theorem Exchange.live_add {old new : List Ref} (h : Exchange arena old new arena')
    (hwf : arena.WellFormed) (hold : old.Nodup) (hnew : new.Nodup)
    (hbefore : ∀ ref ∈ old, (arena.node? ref).isSome)
    (hafter : ∀ ref ∈ new, (arena'.node? ref).isSome) :
    arena'.live + old.length = arena.live + new.length := by
  obtain ⟨kept, hnodup, hkept⟩ : ∃ kept : List Ref, kept.Nodup ∧
      ∀ ref, ref ∈ kept ↔ (arena.node? ref).isSome ∧ ref ∉ old := by
    refine ⟨arena.liveRefs.filter (· ∉ old), arena.nodup_liveRefs.filter _, fun ref => ?_⟩
    rw [List.mem_filter, mem_liveRefs, decide_eq_true_iff]
  have hlive : arena.live = (old ++ kept).length := by
    refine hwf.live_eq_length (List.nodup_append'.mpr ⟨hold, hnodup, ?_⟩) fun ref => ?_
    · exact fun ref hmem hmem' => ((hkept ref).mp hmem').2 hmem
    · rw [List.mem_append, hkept]
      have hsome := hbefore ref
      tauto
  have hlive' : arena'.live = (new ++ kept).length := by
    refine (h.wellFormed hwf).live_eq_length (List.nodup_append'.mpr ⟨hnew, hnodup, ?_⟩)
      fun ref => ?_
    · intro ref hmem hmem'
      obtain ⟨hsome, hnot⟩ := (hkept ref).mp hmem'
      exact h.not_mem_new hsome hnot hmem
    · constructor
      · intro hmem
        rcases List.mem_append.mp hmem with hmem | hmem
        · exact hafter ref hmem
        · obtain ⟨hsome, hnot⟩ := (hkept ref).mp hmem
          rwa [h.node?_eq hsome hnot]
      · exact h.live_subset fun other hsome => by
          rw [List.mem_append, hkept]
          tauto
  rw [hlive, hlive', List.length_append, List.length_append]
  omega

/-- Taking the slots of a tree adds its size to the number of live slots. -/
theorem Exchange.live_taken (h : Exchange arena [] layout.refs arena') (hwf : arena.WellFormed)
    (htree : arena'.IsTree layout) : arena'.live = arena.live + layout.term.size := by
  rw [← layout.length_refs]
  exact h.live_add hwf List.nodup_nil htree.nodup (fun _ hmem => nomatch hmem)
    fun _ hmem => htree.holds.isSome_of_mem hmem

/-- Giving up the slots of a tree takes its size from the number of live slots. -/
theorem Exchange.live_freed (h : Exchange arena layout.refs [] arena') (hwf : arena.WellFormed)
    (htree : arena.IsTree layout) : arena'.live + layout.term.size = arena.live := by
  rw [← layout.length_refs]
  exact h.live_add hwf htree.nodup List.nodup_nil
    (fun _ hmem => htree.holds.isSome_of_mem hmem) fun _ hmem => nomatch hmem

/-- A new node is one more live slot. -/
theorem WellFormed.live_alloc (hwf : arena.WellFormed) (node : Node α) :
    (arena.alloc node).2.live = arena.live + 1 := by
  have hfree : arena.free.length ≤ arena.slots.size := by
    have hsubset : arena.free ⊆ List.range arena.slots.size := fun ref hmem =>
      List.mem_range.mpr ((hwf.mem_free_iff ref).mp hmem).1
    simpa using (List.subperm_of_subset hwf.nodup hsubset).length_le
  unfold Arena.alloc
  split
  next slots ref free =>
      simp only [List.length_cons] at hfree
      simp only [live, Array.size_setIfInBounds, List.length_cons]
      omega
  next => simp [live]

/-- The live slots of the arena form trees that stand apart from each other. -/
structure Forest (arena : Arena α) (trees : List (Layout α)) : Prop where
  wellFormed : arena.WellFormed
  isTree : ∀ tree ∈ trees, arena.IsTree tree
  apart : Apart trees
  mem_of_live : ∀ ref, (arena.node? ref).isSome → ∃ tree ∈ trees, ref ∈ tree.refs

namespace Forest

/-- The order of the trees does not matter. -/
theorem perm {trees' : List (Layout α)} (h : arena.Forest trees) (hperm : trees.Perm trees') :
    arena.Forest trees' where
  wellFormed := h.wellFormed
  isTree tree hmem := h.isTree tree (hperm.mem_iff.mpr hmem)
  apart := h.apart.perm hperm
  mem_of_live ref hsome := by
    obtain ⟨tree, hmem, href⟩ := h.mem_of_live ref hsome
    exact ⟨tree, hperm.mem_iff.mp hmem, href⟩

/-- The live slots of the arena are those of the trees. -/
theorem live_eq (h : arena.Forest trees) : arena.live = (trees.flatMap Layout.refs).length := by
  have hnodup : (trees.flatMap Layout.refs).Nodup :=
    List.nodup_flatMap.mpr ⟨fun tree hmem => (h.isTree tree hmem).nodup, h.apart⟩
  refine h.wellFormed.live_eq_length hnodup fun ref => ?_
  rw [List.mem_flatMap]
  constructor
  · rintro ⟨tree, hmem, href⟩
    exact (h.isTree tree hmem).holds.isSome_of_mem href
  · exact h.mem_of_live ref

end Forest

/-! ### Trees given up for others -/

/-- The trees `old` are given up, and the trees `new` stand in the arena afterwards, apart from
each other. -/
structure Replaces (arena : Arena α) (old new : List (Layout α)) (arena' : Arena α) : Prop where
  exchange : Exchange arena (old.flatMap Layout.refs) (new.flatMap Layout.refs) arena'
  isTree : ∀ tree ∈ new, arena'.IsTree tree
  apart : Apart new

namespace Replaces

theorem refl (arena : Arena α) : Replaces arena [] [] arena where
  exchange := .refl _ _
  isTree _ hmem := nomatch hmem
  apart := .nil

/-- One tree is taken. -/
theorem of_isTree (htree : arena'.IsTree layout)
    (hexchange : Exchange arena (old.flatMap Layout.refs) layout.refs arena') :
    Replaces arena old [layout] arena' where
  exchange := by simpa using hexchange
  isTree tree hmem := by
    rw [List.mem_singleton.mp hmem]
    exact htree
  apart := List.pairwise_singleton _ _

/-- Trees are given up, and none is taken. -/
theorem of_gone (hexchange : Exchange arena (old.flatMap Layout.refs) [] arena') :
    Replaces arena old [] arena' where
  exchange := hexchange
  isTree _ hmem := nomatch hmem
  apart := .nil

/-- Some of the trees taken are given up again for others, and the rest is kept. -/
theorem after (hsecond : Replaces arena' middle new arena'')
    (hfirst : Replaces arena old (middle ++ rest) arena') :
    Replaces arena old (new ++ rest) arena'' := by
  obtain ⟨_, hrest, hcross⟩ := List.pairwise_append.mp hfirst.apart
  have hdisjoint : ∀ tree ∈ rest, tree.refs.Disjoint (middle.flatMap Layout.refs) := by
    intro tree hmem ref href hmiddle
    obtain ⟨other, hother, hmiddle⟩ := List.mem_flatMap.mp hmiddle
    exact hcross other hother tree hmem hmiddle href
  have hkept : ∀ tree ∈ rest, arena'.IsTree tree :=
    fun tree hmem => hfirst.isTree tree (List.mem_append_right _ hmem)
  constructor
  · have hexchange := hfirst.exchange
    rw [List.flatMap_append] at hexchange ⊢
    exact hexchange.trans (hsecond.exchange.frame _)
  · intro tree hmem
    rcases List.mem_append.mp hmem with hmem | hmem
    · exact hsecond.isTree tree hmem
    · exact hsecond.exchange.isTree (hkept tree hmem) (hdisjoint tree hmem)
  · refine List.pairwise_append.mpr ⟨hsecond.apart, hrest, ?_⟩
    intro left hleft right hright ref href hmem
    exact hsecond.exchange.disjoint (hkept right hright).holds (hdisjoint right hright) hmem
      (List.mem_flatMap.mpr ⟨left, hleft, href⟩)

end Replaces

/-- The trees of a forest are what the empty arena has taken. -/
theorem forest_iff_replaces : arena.Forest trees ↔ Replaces .empty [] trees arena := by
  constructor
  · intro h
    refine ⟨⟨fun _ => h.wellFormed, ?_, fun ref _ _ => node?_empty ref, ?_⟩, h.isTree, h.apart⟩
    · exact fun ref hold => absurd hold List.not_mem_nil
    · intro ref _ hnew
      rw [node?_empty, ← Option.not_isSome_iff_eq_none]
      exact fun hsome => hnew (List.mem_flatMap.mpr (h.mem_of_live ref hsome))
  · intro h
    refine ⟨h.exchange.wellFormed wellFormed_empty, h.isTree, h.apart, fun ref hsome => ?_⟩
    by_contra hnew
    rw [← List.mem_flatMap] at hnew
    rw [h.exchange.same ref List.not_mem_nil hnew, node?_empty] at hsome
    cases hsome

/-- A forest stays a forest, and keeps the trees that are not given up. -/
theorem Replaces.forest (hreplaces : Replaces arena old new arena')
    (h : arena.Forest (old ++ rest)) : arena'.Forest (new ++ rest) :=
  forest_iff_replaces.mpr (hreplaces.after (forest_iff_replaces.mp h))

end Arena

end LambdaMachine
