import LambdaMachine.Arena.Layout

/-!
# Footprints

An operation on an arena gives up some slots and takes others, and does not touch the
rest. Such footprints can be put one after the other, and can be extended by slots that
the operation leaves as they are, so the footprint of a composite operation is found
from those of its parts.

What an arena holds outside a footprint it still holds afterwards (`Exchange.holds`), and
its slots stay apart from those taken (`Exchange.disjoint`).
-/

namespace LambdaMachine.Arena

variable {α : Type}

/-- The slots `old` are given up and the slots `new` are taken. A slot of both may hold
another node afterwards; all others hold what they held. -/
structure Exchange (arena : Arena α) (old new : List Ref) (arena' : Arena α) : Prop where
  wellFormed : arena.WellFormed → arena'.WellFormed
  freed : ∀ ref ∈ old, ref ∉ new → arena'.node? ref = none
  taken : ∀ ref ∈ new, ref ∉ old → arena.node? ref = none
  same : ∀ ref, ref ∉ old → ref ∉ new → arena'.node? ref = arena.node? ref

namespace Exchange

variable {arena arena₁ arena₂ : Arena α} {old middle new rest : List Ref} {layout : Layout α}

theorem refl (arena : Arena α) (refs : List Ref) : Exchange arena refs refs arena where
  wellFormed := id
  freed _ hold hnew := absurd hold hnew
  taken _ hnew hold := absurd hnew hold
  same _ _ _ := rfl

theorem trans (hfirst : Exchange arena old middle arena₁)
    (hsecond : Exchange arena₁ middle new arena₂) : Exchange arena old new arena₂ where
  wellFormed hwf := hsecond.wellFormed (hfirst.wellFormed hwf)
  freed ref hold hnew := by
    by_cases hmiddle : ref ∈ middle
    · exact hsecond.freed ref hmiddle hnew
    · rw [hsecond.same ref hmiddle hnew, hfirst.freed ref hold hmiddle]
  taken ref hnew hold := by
    by_cases hmiddle : ref ∈ middle
    · exact hfirst.taken ref hmiddle hold
    · rw [← hfirst.same ref hold hmiddle, hsecond.taken ref hnew hmiddle]
  same ref hold hnew := by
    by_cases hmiddle : ref ∈ middle
    · rw [hsecond.freed ref hmiddle hnew, hfirst.taken ref hmiddle hold]
    · rw [hsecond.same ref hmiddle hnew, hfirst.same ref hold hmiddle]

/-- A footprint may be extended by slots that are left as they are. -/
theorem frame (h : Exchange arena old new arena₁) (rest : List Ref) :
    Exchange arena (old ++ rest) (new ++ rest) arena₁ where
  wellFormed := h.wellFormed
  freed ref hold hnew := by
    simp only [List.mem_append, not_or] at hold hnew
    exact h.freed ref (hold.resolve_right hnew.2) hnew.1
  taken ref hnew hold := by
    simp only [List.mem_append, not_or] at hold hnew
    exact h.taken ref (hnew.resolve_right hold.2) hold.1
  same ref hold hnew := by
    simp only [List.mem_append, not_or] at hold hnew
    exact h.same ref hold.1 hnew.1

/-- Only which slots are in a footprint matters. -/
theorem of_mem_iff {old' new' : List Ref} (h : Exchange arena old new arena₁)
    (hold : ∀ ref, ref ∈ old' ↔ ref ∈ old) (hnew : ∀ ref, ref ∈ new' ↔ ref ∈ new) :
    Exchange arena old' new' arena₁ where
  wellFormed := h.wellFormed
  freed ref := by rw [hold, hnew]; exact h.freed ref
  taken ref := by rw [hold, hnew]; exact h.taken ref
  same ref := by rw [hold, hnew]; exact h.same ref

theorem cons (h : Exchange arena old new arena₁) (ref : Ref) :
    Exchange arena (ref :: old) (ref :: new) arena₁ :=
  (h.frame [ref]).of_mem_iff (by simp [or_comm]) (by simp [or_comm])

/-- Slots that hold nodes and are not given up are not taken. -/
theorem not_mem_new (h : Exchange arena old new arena₁) {ref : Ref}
    (hsome : (arena.node? ref).isSome) (hold : ref ∉ old) : ref ∉ new := by
  intro hnew
  simp [h.taken ref hnew hold] at hsome

theorem node?_eq (h : Exchange arena old new arena₁) {ref : Ref}
    (hsome : (arena.node? ref).isSome) (hold : ref ∉ old) :
    arena₁.node? ref = arena.node? ref :=
  h.same ref hold (h.not_mem_new hsome hold)

/-- What stands outside a footprint still stands there afterwards. -/
theorem holds (h : Exchange arena old new arena₁) (hholds : arena.Holds layout)
    (hdisjoint : layout.refs.Disjoint old) : arena₁.Holds layout :=
  hholds.congr fun _ hmem => h.node?_eq (hholds.isSome_of_mem hmem) (hdisjoint hmem)

theorem isTree (h : Exchange arena old new arena₁) (htree : arena.IsTree layout)
    (hdisjoint : layout.refs.Disjoint old) : arena₁.IsTree layout :=
  ⟨h.holds htree.holds hdisjoint, htree.nodup⟩

/-- Nodes outside a footprint stay apart from the slots taken. -/
theorem disjoint (h : Exchange arena old new arena₁) (hholds : arena.Holds layout)
    (hdisjoint : layout.refs.Disjoint old) : layout.refs.Disjoint new :=
  fun _ hmem => h.not_mem_new (hholds.isSome_of_mem hmem) (hdisjoint hmem)

/-- Where the arena held nothing else, it holds nothing else afterwards. -/
theorem live_subset (h : Exchange arena old new arena₁)
    (hlive : ∀ ref, (arena.node? ref).isSome → ref ∈ old ++ rest) {ref : Ref}
    (hsome : (arena₁.node? ref).isSome) : ref ∈ new ++ rest := by
  by_cases hnew : ref ∈ new
  · exact List.mem_append_left _ hnew
  · by_cases hold : ref ∈ old
    · simp [h.freed ref hold hnew] at hsome
    · rw [h.same ref hold hnew] at hsome
      exact List.mem_append_right _ ((List.mem_append.1 (hlive ref hsome)).resolve_left hold)

end Exchange

/-! ### The footprints of single operations -/

section Operations

variable {arena arena' : Arena α} {ref : Ref}

theorem exchange_of_write {node : Node α} (hwrite : arena.write ref node = .ok arena') :
    Exchange arena [ref] [ref] arena' where
  wellFormed hwf := hwf.of_write hwrite
  freed _ hold hnew := absurd hold hnew
  taken _ hnew hold := absurd hnew hold
  same other hold _ := by
    rw [node?_of_write hwrite, if_neg (by simpa using hold)]

theorem exists_write (hsome : (arena.node? ref).isSome) (node : Node α) :
    ∃ arena', arena.write ref node = .ok arena' ∧ Exchange arena [ref] [ref] arena' ∧
      arena'.node? ref = some node := by
  have hwrite :
      arena.write ref node = .ok ⟨arena.slots.setIfInBounds ref (some node), arena.free⟩ :=
    write_eq_ok_iff.mpr ⟨hsome, rfl⟩
  refine ⟨_, hwrite, exchange_of_write hwrite, ?_⟩
  rw [node?_of_write hwrite, if_pos rfl]

theorem exists_setChild {node changed : Node α} {side : Side} {child : Ref}
    (hnode : arena.node? ref = some node) (hchanged : node.withChild? side child = some changed) :
    ∃ arena', arena.setChild ref side child = .ok arena' ∧ Exchange arena [ref] [ref] arena' ∧
      arena'.node? ref = some changed := by
  have hsome : (arena.node? ref).isSome := by simp [hnode]
  obtain ⟨arena', hwrite, hexchange, hnode'⟩ := exists_write hsome changed
  exact ⟨arena', setChild_eq_ok_iff.mpr ⟨node, changed, hnode, hchanged, hwrite⟩, hexchange,
    hnode'⟩

theorem exists_release (hsome : (arena.node? ref).isSome) :
    ∃ arena', arena.release ref = .ok arena' ∧ Exchange arena [ref] [] arena' := by
  have hrelease := release_eq_ok_iff.mpr ⟨hsome, rfl⟩
  refine ⟨_, hrelease, ?_⟩
  constructor
  · exact fun hwf => hwf.of_release hrelease
  · intro other hold _
    rw [node?_of_release hrelease, if_pos (List.mem_singleton.mp hold)]
  · exact fun _ hnew => absurd hnew List.not_mem_nil
  · intro other hold _
    rw [node?_of_release hrelease, if_neg (by simpa using hold)]

theorem WellFormed.exists_alloc (hwf : arena.WellFormed) (node : Node α) :
    ∃ ref arena', arena.alloc node = (ref, arena') ∧ Exchange arena [] [ref] arena' ∧
      arena'.node? ref = some node := by
  refine ⟨(arena.alloc node).1, (arena.alloc node).2, rfl, ?_, by
    rw [hwf.node?_alloc, if_pos rfl]⟩
  constructor
  · exact fun _ => hwf.alloc node
  · exact fun _ hold => absurd hold List.not_mem_nil
  · intro other hnew _
    rw [List.mem_singleton.mp hnew, hwf.node?_alloc_fst]
  · intro other _ hnew
    rw [hwf.node?_alloc, if_neg (by simpa using hnew)]

/-- Storing a child and linking it to a node that is there already takes one slot. -/
theorem WellFormed.exists_grow (hwf : arena.WellFormed) (hsome : (arena.node? ref).isSome)
    (child : Node α) (parent : Ref → Node α) :
    ∃ below arena₁ arena₂, arena.alloc child = (below, arena₁) ∧
      arena₁.write ref (parent below) = .ok arena₂ ∧
      Exchange arena [ref] [ref, below] arena₂ ∧ below ≠ ref ∧
      arena₂.node? ref = some (parent below) ∧ arena₂.node? below = some child := by
  obtain ⟨below, arena₁, halloc, hgrow, hchild⟩ := hwf.exists_alloc child
  have hne : below ≠ ref := by
    rintro rfl
    exact hgrow.not_mem_new hsome List.not_mem_nil List.mem_cons_self
  have hsome₁ : (arena₁.node? ref).isSome := by
    rwa [hgrow.node?_eq hsome List.not_mem_nil]
  obtain ⟨arena₂, hwrite, hput, hparent⟩ := exists_write hsome₁ (parent below)
  refine ⟨below, arena₁, arena₂, halloc, hwrite, ?_, hne, hparent, ?_⟩
  · exact (hgrow.cons ref).trans (hput.frame [below])
  · rw [hput.node?_eq (by simp [hchild]) (by simpa using hne), hchild]

theorem WellFormed.exists_grow_pair (hwf : arena.WellFormed) (hsome : (arena.node? ref).isSome)
    (child child' : Node α) (parent : Ref → Ref → Node α) :
    ∃ left right arena₁ arena₂ arena₃, arena.alloc child = (left, arena₁) ∧
      arena₁.alloc child' = (right, arena₂) ∧ arena₂.write ref (parent left right) = .ok arena₃ ∧
      Exchange arena [] [left] arena₁ ∧ Exchange arena [ref] [ref, left, right] arena₃ ∧
      (left ≠ ref ∧ right ≠ ref ∧ left ≠ right) ∧ arena₃.node? ref = some (parent left right) ∧
      arena₃.node? left = some child ∧ arena₃.node? right = some child' := by
  obtain ⟨left, arena₁, halloc, hleft, hchild⟩ := hwf.exists_alloc child
  have hne : left ≠ ref := by
    rintro rfl
    exact hleft.not_mem_new hsome List.not_mem_nil List.mem_cons_self
  have hsome₁ : (arena₁.node? ref).isSome := by
    rwa [hleft.node?_eq hsome List.not_mem_nil]
  obtain ⟨right, arena₂, arena₃, halloc', hwrite, hright, hne', hparent, hchild'⟩ :=
    (hleft.wellFormed hwf).exists_grow hsome₁ child' (parent left)
  have hsome' : (arena₁.node? left).isSome := by simp [hchild]
  have hout : left ∉ [ref] := by simpa using hne
  have hnot := hright.not_mem_new hsome' hout
  refine ⟨left, right, arena₁, arena₂, arena₃, halloc, halloc', hwrite, hleft, ?_,
    ⟨hne, hne', ?_⟩, hparent, ?_, hchild'⟩
  · exact ((hleft.cons ref).trans (hright.frame [left])).of_mem_iff (by simp) (by simp [or_comm])
  · rintro rfl
    exact hnot (by simp)
  · rw [hright.node?_eq hsome' hout, hchild]

end Operations

/-! ### Giving a node its children -/

section Children

variable {arena arena₁ arena₂ : Arena α} {ref : Ref} {function argument body : Layout α}

/-- The child of an abstraction is grown into a tree. -/
theorem Exchange.isTree_lam (hnode : arena.node? ref = some (.lam body.root))
    (hne : body.root ≠ ref) (hbody : Exchange arena [body.root] body.refs arena₁)
    (htree : arena₁.IsTree body) :
    arena₁.IsTree (.lam ref body) ∧
      Exchange arena [ref, body.root] (Layout.lam ref body).refs arena₁ := by
  have hsome : (arena.node? ref).isSome := by simp [hnode]
  have hnot : ref ∉ [body.root] := by simpa using hne.symm
  refine ⟨Arena.isTree_lam.mpr ⟨?_, hbody.not_mem_new hsome hnot, htree⟩, hbody.cons ref⟩
  rw [hbody.node?_eq hsome hnot, hnode]

/-- The children of an application are grown into trees, one after the other. -/
theorem Exchange.isTree_app (hnode : arena.node? ref = some (.app function.root argument.root))
    (hne : function.root ≠ ref ∧ argument.root ≠ ref ∧ function.root ≠ argument.root)
    (hsome : (arena.node? argument.root).isSome)
    (hfunction : Exchange arena [function.root] function.refs arena₁)
    (htreef : arena₁.IsTree function)
    (hargument : Exchange arena₁ [argument.root] argument.refs arena₂)
    (htreea : arena₂.IsTree argument) :
    arena₂.IsTree (.app ref function argument) ∧
      Exchange arena [ref, function.root, argument.root]
        (Layout.app ref function argument).refs arena₂ := by
  obtain ⟨hnef, hnea, hnefa⟩ := hne
  have hsome₀ : (arena.node? ref).isSome := by simp [hnode]
  have hnotf : ref ∉ [function.root] := by simpa using hnef.symm
  have hnota : ref ∉ [argument.root] := by simpa using hnea.symm
  have hnode₁ : arena₁.node? ref = some (.app function.root argument.root) := by
    rw [hfunction.node?_eq hsome₀ hnotf, hnode]
  have hsome₁ : (arena₁.node? ref).isSome := by simp [hnode₁]
  have happart : function.refs.Disjoint [argument.root] :=
    List.disjoint_singleton.mpr (hfunction.not_mem_new hsome (by simpa using hnefa.symm))
  constructor
  · refine Arena.isTree_app.mpr ⟨?_, ⟨?_, hargument.not_mem_new hsome₁ hnota⟩, ?_,
      hargument.isTree htreef happart, htreea⟩
    · rw [hargument.node?_eq hsome₁ hnota, hnode₁]
    · exact hfunction.not_mem_new hsome₀ hnotf
    · exact hargument.disjoint htreef.holds happart
  · have hright : Exchange arena₁ (function.refs ++ [argument.root])
        (function.refs ++ argument.refs) arena₂ :=
      (hargument.frame function.refs).of_mem_iff (by simp [or_comm]) (by simp [or_comm])
    exact ((hfunction.frame [argument.root]).trans hright).cons ref

end Children

end LambdaMachine.Arena
