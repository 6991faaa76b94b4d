import LambdaMachine.Arena.Basic

/-!
# What the slots hold after each operation

The slots are seen through `node?`. Each operation changes what one slot holds and
leaves all others alone; reading changes nothing.

An arena is `WellFormed` if its free list names every empty slot once. The empty
arena is, and every operation keeps it.
-/

namespace LambdaMachine.Arena

variable {α : Type} {arena arena' : Arena α} {ref other : Ref} {node : Node α}

/-- The free list names exactly the empty slots, each once. -/
structure WellFormed (arena : Arena α) : Prop where
  nodup : arena.free.Nodup
  mem_free_iff : ∀ ref,
    ref ∈ arena.free ↔ ref < arena.slots.size ∧ arena.node? ref = none

theorem node?_eq_some_iff :
    arena.node? ref = some node ↔ arena.slots[ref]? = some (some node) :=
  Option.join_eq_some_iff

theorem lt_size_of_node? (hnode : arena.node? ref = some node) : ref < arena.slots.size := by
  rw [node?_eq_some_iff] at hnode
  exact (Array.getElem?_eq_some_iff.1 hnode).1

/-! ### Reading and writing -/

theorem read_eq_ok_iff : arena.read ref = .ok node ↔ arena.node? ref = some node := by
  unfold read
  cases arena.node? ref <;> simp

theorem read_eq_error_iff {fault : Fault} :
    arena.read ref = .error fault ↔ arena.node? ref = none ∧ fault = .dangling ref := by
  unfold read
  cases arena.node? ref <;> simp [eq_comm]

theorem write_eq_ok_iff :
    arena.write ref node = .ok arena' ↔ (arena.node? ref).isSome ∧
      arena' = ⟨arena.slots.setIfInBounds ref (some node), arena.free⟩ := by
  unfold write
  cases arena.node? ref <;> simp [eq_comm]

theorem node?_of_write (hwrite : arena.write ref node = .ok arena') (other : Ref) :
    arena'.node? other = if other = ref then some node else arena.node? other := by
  obtain ⟨hsome, rfl⟩ := write_eq_ok_iff.1 hwrite
  obtain ⟨old, hold⟩ := Option.isSome_iff_exists.1 hsome
  have hlt := lt_size_of_node? hold
  simp only [node?, Array.getElem?_setIfInBounds]
  by_cases heq : ref = other
  · simp [← heq, hlt]
  · simp [heq, Ne.symm heq]

theorem free_of_write (hwrite : arena.write ref node = .ok arena') :
    arena'.free = arena.free := by
  obtain ⟨_, rfl⟩ := write_eq_ok_iff.1 hwrite
  rfl

theorem size_of_write (hwrite : arena.write ref node = .ok arena') :
    arena'.slots.size = arena.slots.size := by
  obtain ⟨_, rfl⟩ := write_eq_ok_iff.1 hwrite
  simp

theorem WellFormed.of_write (hwf : arena.WellFormed)
    (hwrite : arena.write ref node = .ok arena') : arena'.WellFormed where
  nodup := free_of_write hwrite ▸ hwf.nodup
  mem_free_iff other := by
    rw [free_of_write hwrite, size_of_write hwrite, node?_of_write hwrite, hwf.mem_free_iff]
    split
    next heq =>
      subst heq
      have hsome := (write_eq_ok_iff.1 hwrite).1
      simp [Option.isSome_iff_ne_none.1 hsome]
    next => rfl

/-! ### Allocating -/

/-- A new node goes to a slot that held none. -/
theorem WellFormed.node?_alloc_fst (hwf : arena.WellFormed) (node : Node α) :
    arena.node? (arena.alloc node).1 = none := by
  unfold alloc
  split
  next slots ref free => exact ((hwf.mem_free_iff ref).1 List.mem_cons_self).2
  next slots => simp [node?]

theorem WellFormed.node?_alloc (hwf : arena.WellFormed) (node : Node α) (other : Ref) :
    (arena.alloc node).2.node? other =
      if other = (arena.alloc node).1 then some node else arena.node? other := by
  unfold alloc
  split
  next slots ref free =>
      have hlt : ref < slots.size := ((hwf.mem_free_iff ref).1 List.mem_cons_self).1
      simp only [node?, Array.getElem?_setIfInBounds]
      by_cases heq : ref = other
      · simp [← heq, hlt]
      · simp [heq, Ne.symm heq]
  next slots =>
      simp only [node?, Array.getElem?_push]
      split <;> simp_all

theorem WellFormed.alloc (hwf : arena.WellFormed) (node : Node α) :
    (arena.alloc node).2.WellFormed := by
  constructor
  · unfold Arena.alloc
    split
    next slots ref free => exact (List.nodup_cons.1 hwf.nodup).2
    next => exact List.nodup_nil
  · intro other
    rw [hwf.node?_alloc]
    unfold Arena.alloc
    split
    next slots ref free =>
        have hmem := hwf.mem_free_iff other
        have hnot := (List.nodup_cons.1 hwf.nodup).1
        simp only [Array.size_setIfInBounds]
        by_cases heq : other = ref
        · subst heq
          simpa using hnot
        · simpa [heq] using hmem
    next slots =>
        have hmem := hwf.mem_free_iff other
        by_cases heq : other = slots.size
        · simp [heq]
        · have hlt : other < slots.size + 1 ↔ other < slots.size := by
            constructor <;> intro hlt
            · exact Nat.lt_of_le_of_ne (Nat.le_of_lt_succ hlt) heq
            · exact Nat.lt_succ_of_lt hlt
          simpa [heq, hlt] using hmem

/-! ### Releasing -/

theorem release_eq_ok_iff :
    arena.release ref = .ok arena' ↔ (arena.node? ref).isSome ∧
      arena' = ⟨arena.slots.setIfInBounds ref none, ref :: arena.free⟩ := by
  unfold release
  cases arena.node? ref <;> simp [eq_comm]

theorem node?_of_release (hrelease : arena.release ref = .ok arena') (other : Ref) :
    arena'.node? other = if other = ref then none else arena.node? other := by
  obtain ⟨hsome, rfl⟩ := release_eq_ok_iff.1 hrelease
  obtain ⟨old, hold⟩ := Option.isSome_iff_exists.1 hsome
  have hlt := lt_size_of_node? hold
  simp only [node?, Array.getElem?_setIfInBounds]
  by_cases heq : ref = other
  · simp [← heq, hlt]
  · simp [heq, Ne.symm heq]

theorem WellFormed.of_release (hwf : arena.WellFormed)
    (hrelease : arena.release ref = .ok arena') : arena'.WellFormed := by
  have hnode := node?_of_release hrelease
  obtain ⟨hsome, rfl⟩ := release_eq_ok_iff.1 hrelease
  obtain ⟨old, hold⟩ := Option.isSome_iff_exists.1 hsome
  have hlt := lt_size_of_node? hold
  constructor
  · refine List.nodup_cons.2 ⟨fun hmem => ?_, hwf.nodup⟩
    rw [hwf.mem_free_iff, hold] at hmem
    exact Option.some_ne_none _ hmem.2
  · intro other
    rw [hnode, List.mem_cons, hwf.mem_free_iff, Array.size_setIfInBounds]
    by_cases heq : other = ref
    · simp [heq, hlt]
    · simp [heq]

/-! ### Children -/

theorem child_eq_ok_iff {side : Side} {child : Ref} :
    arena.child ref side = .ok child ↔
      ∃ node, arena.node? ref = some node ∧ node.child? side = some child := by
  unfold Arena.child
  simp only [bind, Except.bind]
  cases hread : arena.read ref with
  | error fault => simp [(read_eq_error_iff.1 hread).1]
  | ok node =>
      rw [read_eq_ok_iff] at hread
      simp only [hread, Option.some.injEq, exists_eq_left']
      split <;> simp_all

theorem setChild_eq_ok_iff {side : Side} {child : Ref} :
    arena.setChild ref side child = .ok arena' ↔
      ∃ node changed, arena.node? ref = some node ∧
        node.withChild? side child = some changed ∧ arena.write ref changed = .ok arena' := by
  unfold Arena.setChild
  simp only [bind, Except.bind]
  cases hread : arena.read ref with
  | error fault => simp [(read_eq_error_iff.1 hread).1]
  | ok node =>
      rw [read_eq_ok_iff] at hread
      simp only [hread, Option.some.injEq, exists_and_left, exists_eq_left']
      split <;> simp_all

/-! ### The empty arena -/

@[simp]
theorem node?_empty (ref : Ref) : (empty : Arena α).node? ref = none := by
  simp [node?, empty]

theorem wellFormed_empty : (empty : Arena α).WellFormed where
  nodup := List.nodup_nil
  mem_free_iff ref := by simp [empty]

end LambdaMachine.Arena
