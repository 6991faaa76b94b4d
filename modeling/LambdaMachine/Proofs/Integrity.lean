import LambdaMachine.Proofs.Edits
import LambdaMachine.Proofs.Finishing
import LambdaMachine.Proofs.Remnants

/-!
# Arenas under any use

An arena is used by calls of its operations, with any references and over any nodes; the
children of a node may be shared, may be below themselves, and need not be there. As long as
every call has come to its end, the free list names each empty slot once, nothing new gets a
slot that is in use, and no call but the release of a single slot can meet a slot that is free
already (`integrity_of_used`).
-/

namespace LambdaMachine.Arena

/-- A call of an operation. -/
inductive Operation where
  | alloc (node : Node Atom)
  | write (ref : Ref) (node : Node Atom)
  | setChild (parent : Ref) (side : Side) (child : Ref)
  | parse (text : String)
  | church (n : Nat)
  | clone (root : Ref)
  | substitute (function argument : Ref)
  | beta (function argument : Ref)
  | toNumber (root : Ref)
  | releaseTree (root : Ref)
  | release (ref : Ref)
  | clear
  deriving DecidableEq, Repr

/-- What a call gives besides the arena. -/
inductive Answer where
  /-- Something new has this root. -/
  | created (root : Ref)
  /-- The text is no program. -/
  | rejected (error : SyntaxError)
  /-- So many occurrences have been replaced. -/
  | replaced (count : Nat)
  /-- What was contracted has become this. -/
  | contracted (root : Ref)
  | number (number : Option Nat)
  | done

/-- Make a call. Operations on whole subtrees carry fuel. -/
def Operation.perform (fuel : Nat) (arena : Program) : Operation → Except Fault (Answer × Program)
  | .alloc node => .ok (.created (arena.alloc node).1, (arena.alloc node).2)
  | .write ref node => do return (.done, ← arena.write ref node)
  | .setChild parent side child => do return (.done, ← arena.setChild parent side child)
  | .parse text =>
      let parsed := Source.parse text arena
      match parsed.result with
      | .ok root => .ok (.created root, parsed.arena)
      | .error error => .ok (.rejected error, parsed.arena)
  | .church n => .ok (.created (arena.church n).1, (arena.church n).2)
  | .clone root => do
      let (copy, arena) ← arena.clone fuel root
      return (.created copy, arena)
  | .substitute function argument => do
      let state ← arena.substitute fuel function argument
      return (.replaced state.count, state.arena)
  | .beta function argument => do
      let (body, arena) ← arena.beta fuel function argument
      return (.contracted body, arena)
  | .toNumber root => do
      let (number, arena) ← arena.toNumber fuel root
      return (.number number, arena)
  | .releaseTree root => do return (.done, ← arena.releaseTree fuel root)
  | .release ref => do return (.done, ← arena.release ref)
  | .clear => .ok (.done, .empty)

/-- Arenas that calls lead to, each of which has come to its end. -/
inductive Used : Program → Prop where
  | new : Used .empty
  | call {arena arena' fuel operation answer} (h : Used arena)
      (hperform : Operation.perform fuel arena operation = .ok (answer, arena')) : Used arena'

variable {arena arena' : Program} {operation : Operation} {fuel : Nat} {answer : Answer}

/-- What a call should leave behind and give: a right free list, and only new roots of what is
new. -/
structure Sound (arena : Program) (answer : Answer) (arena' : Program) : Prop where
  wellFormed : arena'.WellFormed
  fresh : ∀ root, answer = .created root → arena.node? root = none

theorem WellFormed.sound_of_edits (hwf : arena.WellFormed) (hedits : arena.Edits arena')
    (hanswer : ∀ root, answer ≠ .created root) : Sound arena answer arena' :=
  ⟨hwf.of_edits hedits, fun root heq => absurd heq (hanswer root)⟩

theorem WellFormed.sound_parse (hwf : arena.WellFormed) (text : String) :
    Careful (Operation.perform fuel arena (.parse text)) fun result =>
      Sound arena result.1 result.2 := by
  obtain ⟨built, hreplaces, hroot⟩ := Source.exists_remnants text hwf
  have hwf' := hreplaces.exchange.wellFormed hwf
  simp only [Operation.perform]
  cases hresult : (Source.parse text arena).result with
  | ok root =>
      refine .ok ⟨hwf', fun root' heq => ?_⟩
      cases heq
      obtain ⟨tree, rfl, rfl⟩ := hroot root hresult
      exact hreplaces.exchange.taken _ (by simp [tree.root_mem_refs]) List.not_mem_nil
  | error error => exact .ok ⟨hwf', fun _ heq => nomatch heq⟩

/-- A call on an arena whose free list is right, other than the release of a free slot. -/
theorem Operation.careful (hwf : arena.WellFormed) (fuel : Nat) (operation : Operation)
    (hrelease : ∀ ref, operation = .release ref → (arena.node? ref).isSome) :
    Careful (operation.perform fuel arena) fun result => Sound arena result.1 result.2 := by
  cases operation with
  | alloc node =>
      refine .ok ⟨hwf.alloc node, fun root heq => ?_⟩
      cases heq
      exact hwf.node?_alloc_fst node
  | write ref node =>
      exact (arena.careful_write ref node).bind fun _ hfills =>
        .ok (hwf.sound_of_edits hfills.edits (by simp))
  | setChild parent side child =>
      exact (arena.careful_setChild parent side child).bind fun _ hfills =>
        .ok (hwf.sound_of_edits hfills.edits (by simp))
  | parse text => exact hwf.sound_parse text
  | church n =>
      obtain ⟨layout, arena', hchurch, _, _, hexchange⟩ := hwf.exists_church n
      simp only [Operation.perform, hchurch]
      refine .ok ⟨hexchange.wellFormed hwf, fun root heq => ?_⟩
      cases heq
      exact hexchange.taken _ layout.root_mem_refs List.not_mem_nil
  | clone root =>
      refine (arena.careful_clone fuel root).bind fun copied hcopied => ?_
      obtain ⟨hfills, node, hroot⟩ := hcopied
      refine .ok ⟨hwf.of_edits hfills.edits, fun root' heq => ?_⟩
      cases heq
      rw [hroot]
      exact hwf.node?_alloc_fst node
  | substitute function argument =>
      exact (arena.careful_substitute fuel function argument).bind fun _ hedits =>
        .ok (hwf.sound_of_edits hedits (by simp))
  | beta function argument =>
      exact (arena.careful_beta fuel function argument).bind fun _ hedits =>
        .ok (hwf.sound_of_edits hedits (by simp))
  | toNumber root =>
      exact (arena.careful_toNumber fuel root).bind fun _ hedits =>
        .ok (hwf.sound_of_edits hedits (by simp))
  | releaseTree root =>
      exact (arena.careful_releaseTree fuel root).bind fun _ hedits =>
        .ok (hwf.sound_of_edits hedits (by simp))
  | release ref =>
      exact (careful_release (hrelease ref rfl)).bind fun _ hedits =>
        .ok (hwf.sound_of_edits hedits (by simp))
  | clear => exact .ok ⟨wellFormed_empty, fun _ heq => nomatch heq⟩

theorem WellFormed.sound_of_perform (hwf : arena.WellFormed)
    (hperform : operation.perform fuel arena = .ok (answer, arena')) :
    Sound arena answer arena' := by
  refine (operation.careful hwf fuel fun ref heq => ?_).of_eq_ok hperform
  subst heq
  obtain ⟨arena'', hrelease, _⟩ := bind_eq_ok_iff.mp hperform
  exact (release_eq_ok_iff.mp hrelease).1

theorem eq_of_release_fault {ref ref' : Ref}
    (hperform : Operation.perform fuel arena (.release ref) = .error (.alreadyFree ref')) :
    ref' = ref := by
  simp only [Operation.perform, release] at hperform
  cases hnode : arena.node? ref <;> simp only [hnode] at hperform <;> cases hperform
  rfl

/-- Every arena in use has a right free list. -/
theorem Used.wellFormed (h : Used arena) : arena.WellFormed := by
  induction h with
  | new => exact wellFormed_empty
  | call _ hperform ih => exact (ih.sound_of_perform hperform).wellFormed

/-- A right free list counts the slots in use. -/
theorem WellFormed.live_eq_countP {α : Type} {arena : Arena α} (hwf : arena.WellFormed) :
    arena.live = arena.slots.countP Option.isSome := by
  have hslots : arena.slots.toList = (List.range arena.slots.size).map arena.node? := by
    refine List.ext_getElem (by simp) fun ref hlt _ => ?_
    simp only [Array.length_toList] at hlt
    simp [node?, hlt]
  rw [hwf.live_eq_length arena.nodup_liveRefs fun _ => mem_liveRefs, ← Array.countP_toList,
    hslots, List.countP_map, List.countP_eq_length_filter]
  rfl

/-- However an arena has been used, its free list names each empty slot once, and it counts its
live slots right; the next call gives new nodes only slots that were empty, and only the release
of a single slot can meet a slot that is free already. -/
theorem integrity_of_used (h : Used arena) :
    arena.free.Nodup ∧
    (∀ ref, ref ∈ arena.free ↔ arena.slots[ref]? = some none) ∧
    arena.live = arena.slots.countP Option.isSome ∧
    (∀ operation fuel root arena',
      Operation.perform fuel arena operation = .ok (.created root, arena') →
        arena.node? root = none) ∧
    ∀ operation fuel ref, Operation.perform fuel arena operation = .error (.alreadyFree ref) →
      operation = .release ref := by
  have hwf := h.wellFormed
  refine ⟨hwf.nodup, fun ref => ?_, hwf.live_eq_countP, fun operation fuel root arena' hperform =>
    (hwf.sound_of_perform hperform).fresh root rfl, fun operation fuel ref hperform => ?_⟩
  · rw [hwf.mem_free_iff, node?]
    constructor
    · rintro ⟨hlt, hnone⟩
      simpa [hlt] using hnone
    · intro hslot
      obtain ⟨hlt, _⟩ := Array.getElem?_eq_some_iff.mp hslot
      exact ⟨hlt, by rw [hslot]; rfl⟩
  · by_cases hrelease : ∃ ref', operation = .release ref'
    · obtain ⟨ref', rfl⟩ := hrelease
      obtain rfl := eq_of_release_fault hperform
      rfl
    · have hcareful := operation.careful hwf fuel fun ref' heq => absurd ⟨ref', heq⟩ hrelease
      exact absurd hperform (hcareful.ne_alreadyFree ref)

/-- An arena in use in which one slot is both parts of an application. -/
theorem used_shared : Used ⟨#[some (.var 0), some (.app 0 0)], []⟩ := by
  have hvar : Operation.perform 0 .empty (.alloc (.var 0)) =
      .ok (.created 0, ⟨#[some (.var 0)], []⟩) := rfl
  have happ : Operation.perform 0 ⟨#[some (.var 0)], []⟩ (.alloc (.app 0 0)) =
      .ok (.created 1, ⟨#[some (.var 0), some (.app 0 0)], []⟩) := rfl
  exact (Used.new.call hvar).call happ

/-- Releasing an application whose two parts share a slot ends at reading this slot for the
second time, and not at releasing it. -/
theorem integrity_shared :
    ∃ arena, Used arena ∧ arena.node? 1 = some (.app 0 0) ∧
      arena.slots.countP Option.isSome = 2 ∧
      (∀ fuel, Operation.perform (fuel + 3) arena (.releaseTree 1) = .error (.dangling 0)) ∧
      ∀ fuel ref, Operation.perform fuel arena (.releaseTree 1) ≠ .error (.alreadyFree ref) := by
  obtain ⟨_, _, hlive, _, honly⟩ := integrity_of_used used_shared
  refine ⟨_, used_shared, rfl, hlive.symm, fun _ => rfl, fun fuel ref heq => ?_⟩
  cases honly _ fuel ref heq

end LambdaMachine.Arena
