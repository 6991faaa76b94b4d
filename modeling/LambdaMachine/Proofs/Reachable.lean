import Mathlib
import LambdaMachine.Proofs.Links
import LambdaMachine.Proofs.Sessions

/-!
# The invariant of the machine

However a session is used, its machine is intact after every call, and before every step of a
run: its arena holds the tree of a closed program and nothing else, and the cursor is at a
redex that the path leads to, or there is none (`intact_of_reachable`).
-/

namespace LambdaMachine

open Layout (Layer within)

/-! ### Intact machines -/

/-- The representation invariant of the machine. -/
structure Machine.Intact (machine : Machine) : Prop where
  /-- The free list names every empty slot once. -/
  wellFormed : machine.arena.WellFormed
  /-- The live slots are those below the root. -/
  live_iff : ∀ ref, (machine.arena.node? ref).isSome ↔
    ∃ root depth, machine.cursor.root = some root ∧ machine.arena.Below root depth ref
  /-- Every live slot but the root is linked from one place. -/
  linked : ∀ ref, (machine.arena.node? ref).isSome → machine.cursor.root ≠ some ref →
    ∃! link : Link, machine.arena.child link.parent link.side = .ok ref
  /-- The root is linked from nowhere. -/
  unlinked : ∀ root, machine.cursor.root = some root →
    ∀ link : Link, machine.arena.child link.parent link.side ≠ .ok root
  /-- There are as many live slots as the program has nodes. -/
  live_eq : ∀ root, machine.cursor.root = some root → ∃ whole, machine.arena.Holds whole ∧
    whole.root = root ∧ machine.arena.live = whole.term.size
  /-- Without a program nothing is left of the one before. -/
  unloaded : machine.cursor.root = none → machine.arena.live = 0 ∧ machine = .empty
  /-- The path leads from the root to the redex, which is an application. It goes through
  applications only, and to an argument only where the function part is none. -/
  reducing : ∀ redex, machine.cursor.redex = some redex →
    machine.arena.isApp redex = .ok true ∧
    (∃ root, machine.cursor.root = some root ∧
      machine.arena.Leads root machine.cursor.path redex) ∧
    ∀ link ∈ machine.cursor.path, machine.arena.isApp link.parent = .ok true ∧
      (link.side = .function ∨ link.side = .argument ∧ ∃ function,
        machine.arena.child link.parent .function = .ok function ∧
        machine.arena.isApp function = .ok false)
  /-- Without a redex there is no path, and the root is no application. -/
  ended : machine.cursor.redex = none → machine.cursor.path = [] ∧
    ∀ root, machine.cursor.root = some root → machine.arena.isApp root = .ok false
  /-- Every variable counts fewer binders than there are above it. -/
  closed : ∀ root depth ref index, machine.cursor.root = some root →
    machine.arena.Below root depth ref → machine.arena.node? ref = some (.var index) →
    index < depth
  /-- The marker of an operand that was no numeral does not occur. -/
  unmarked : ∀ ref, machine.arena.node? ref ≠ some (.leaf (.pending none))

theorem Layout.Part.unmarked {layout part : Layout Atom} {depth : Nat}
    (hpart : layout.Part depth part) (hunmarked : layout.term.Unmarked) : part.term.Unmarked :=
  hpart.of_term (fun _ h => h) (fun _ _ h => h) hunmarked

/-- The cursor of a machine that keeps a program is at a redex or has none. -/
structure Cursor.Ordered (cursor : Cursor) (arena : Program) (whole : Layout Atom) : Prop where
  reducing : ∀ redex, cursor.redex = some redex →
    arena.isApp redex = .ok true ∧ arena.Leads whole.root cursor.path redex ∧
    ∀ link ∈ cursor.path, arena.isApp link.parent = .ok true ∧
      (link.side = .function ∨ link.side = .argument ∧ ∃ function,
        arena.child link.parent .function = .ok function ∧ arena.isApp function = .ok false)
  ended : cursor.redex = none → cursor.path = [] ∧ whole.term.isApp = false

namespace Arena.Keeps

variable {arena : Program} {root : Option Ref} {whole : Layout Atom}

theorem live_iff (h : arena.Keeps root whole) (ref : Ref) :
    (arena.node? ref).isSome ↔ ∃ depth, arena.Below whole.root depth ref := by
  rw [← h.isTree.holds.mem_refs_iff_below]
  exact ⟨h.live ref, h.isTree.holds.isSome_of_mem⟩

theorem eq_root (h : arena.Keeps root whole) {ref : Ref} (hroot : root = some ref) :
    whole.root = ref :=
  Option.some.inj (h.root_eq.symm.trans hroot)

theorem unmarked (h : arena.Keeps root whole) (ref : Ref) :
    arena.node? ref ≠ some (.leaf (.pending none)) := by
  intro hnode
  obtain ⟨depth, hbelow⟩ := (h.live_iff ref).mp (by simp [hnode])
  obtain ⟨part, hpart, rfl⟩ := h.isTree.holds.exists_part hbelow
  have hunmarked := hpart.unmarked h.sound.2
  rw [(h.isTree.holds.of_part hpart).node?_root] at hnode
  cases part with
  | leaf ref atom =>
      cases hnode
      exact hunmarked rfl
  | _ => cases hnode

/-- A machine that keeps a program is intact if its cursor is in order. -/
theorem intact {machine : Machine} (h : machine.arena.Keeps machine.cursor.root whole)
    (hordered : machine.cursor.Ordered machine.arena whole) : machine.Intact where
  wellFormed := h.wellFormed
  live_iff ref := by
    rw [h.live_iff ref, h.root_eq]
    simp
  linked ref hsome hne := by
    refine existsUnique_link h.isTree h.live hsome fun heq => hne ?_
    rw [h.root_eq, heq]
  unlinked root hroot := by
    obtain rfl := h.eq_root hroot
    exact child_ne_root h.isTree h.live
  live_eq root hroot := by
    obtain rfl := h.eq_root hroot
    exact ⟨whole, h.isTree.holds, rfl, live_eq_size h.isTree h.live h.wellFormed⟩
  unloaded hnone := by
    rw [h.root_eq] at hnone
    cases hnone
  reducing redex hredex := by
    obtain ⟨hisApp, hleads, hpath⟩ := hordered.reducing redex hredex
    exact ⟨hisApp, ⟨whole.root, h.root_eq, hleads⟩, hpath⟩
  ended hredex := by
    obtain ⟨hpath, hvalue⟩ := hordered.ended hredex
    refine ⟨hpath, fun root hroot => ?_⟩
    obtain rfl := h.eq_root hroot
    rw [h.isTree.holds.isApp_root, hvalue]
  closed root depth ref index hroot hbelow hnode := by
    obtain rfl := h.eq_root hroot
    exact h.isTree.holds.index_lt h.sound.1 hbelow hnode
  unmarked := h.unmarked

end Arena.Keeps

/-- The links of the layers go through applications, and to an argument only where the
function part is a value. -/
theorem Cursor.At.ordered {cursor : Cursor} {arena : Program} {layers : List (Layer Atom)}
    {redex : Layout Atom} (hat : cursor.At arena layers redex) :
    cursor.Ordered arena (within layers redex) where
  reducing ref hredex := by
    obtain rfl : redex.root = ref := Option.some.inj (hat.redex_eq.symm.trans hredex)
    have htree := hat.keeps.isTree
    refine ⟨?_, ?_, ?_⟩
    · rw [(htree.of_within layers).holds.isApp_root, hat.isApp]
    · rw [hat.path_eq]
      exact htree.leads_within
    · rw [hat.path_eq]
      intro link hmem
      obtain ⟨layer, hlayer, rfl⟩ := List.mem_map.mp hmem
      obtain ⟨inner, haround⟩ := htree.exists_around hlayer
      cases layer with
      | function parent right =>
          exact ⟨haround.holds.isApp_root, .inl rfl⟩
      | argument parent left =>
          refine ⟨haround.holds.isApp_root, .inr ⟨rfl, left.root, ?_, ?_⟩⟩
          · exact Arena.child_eq_ok_iff.mpr ⟨_, haround.holds.1, rfl⟩
          · rw [haround.holds.2.1.isApp_root]
            exact congrArg _ (hat.waiting _ hlayer rfl)
  ended hredex := by
    rw [hat.redex_eq] at hredex
    cases hredex

theorem Cursor.Done.ordered {cursor : Cursor} {arena : Program} {whole : Layout Atom}
    (hdone : cursor.Done arena whole) : cursor.Ordered arena whole where
  reducing ref hredex := by
    rw [hdone.redex_eq] at hredex
    cases hredex
  ended _ := ⟨hdone.path_eq, hdone.value⟩

theorem Machine.intact_empty : Machine.empty.Intact where
  wellFormed := Arena.wellFormed_empty
  live_iff := by simp [Machine.empty, Arena.node?]
  linked := by simp [Machine.empty, Arena.node?]
  unlinked := by simp [Machine.empty]
  live_eq := by simp [Machine.empty]
  unloaded _ := ⟨rfl, rfl⟩
  reducing := by simp [Machine.empty]
  ended := by simp [Machine.empty]
  closed := by simp [Machine.empty]
  unmarked := by simp [Machine.empty, Arena.node?]

theorem Machine.Settled.intact {machine : Machine} (h : machine.Settled) : machine.Intact := by
  cases h with
  | empty hempty => exact hempty ▸ Machine.intact_empty
  | reducing hat => exact hat.keeps.intact hat.ordered
  | done hdone => exact hdone.keeps.intact hdone.ordered

/-! ### Reachable sessions -/

namespace Session

variable {σ : Type}

/-- The sessions that calls lead to, from a new one on. Between two calls the world of the
host may change. -/
inductive Reachable (host : Host σ) : Session σ → Prop where
  | new {world} : Reachable host ⟨.empty, world⟩
  | load {session next fuel text log error} (h : Reachable host session)
      (hload : session.load host fuel text log = .ok (error, next)) : Reachable host next
  | run {session next fuel budget log failure} (h : Reachable host session)
      (hrun : session.run host fuel budget log = .ok (failure, next)) : Reachable host next
  | unload {session} (h : Reachable host session) : Reachable host (session.unload host)
  | world {session world} (h : Reachable host session) : Reachable host ⟨session.machine, world⟩

variable {host : Host σ} {session : Session σ}

theorem Reachable.settled (h : Reachable host session) : session.machine.Settled := by
  induction h with
  | new => exact .empty rfl
  | load _ hload _ => exact settled_of_load hload
  | run _ hrun ih => exact settled_of_run ih hrun
  | unload _ _ => exact .empty rfl
  | world _ ih => exact ih

/-- Whatever the texts, the budgets and the answers of the host are, the machine is intact
after every call, and before every step of a run. -/
theorem intact_of_reachable (h : Reachable host session) :
    session.machine.Intact ∧ ∀ budget budget' next,
      Drives host (budget, session) (budget', next) → next.machine.Intact := by
  refine ⟨h.settled.intact, fun budget budget' next hdrives => ?_⟩
  exact (hdrives.settled h.settled).intact

/-- A machine is intact that has gone down to an input and is to ask for it. -/
theorem intact_before_input : ∃ session next : Session (List Call),
    (⟨.empty, []⟩ : Session (List Call)).load (Answers.host ⟨fun _ => none, fun _ => 0⟩) 0
      ",'.,::\"" false = .ok (none, session) ∧
    session.machine.Intact ∧
    Drives (Answers.host ⟨fun _ => none, fun _ => 0⟩) (some 2, session) (some 1, next) ∧
    next.machine.cursor.path = [⟨5, .argument⟩] ∧ next.machine.takesCharacter = true ∧
    next.machine.Intact := by
  obtain ⟨nodes, hload, hstep, htakes⟩ : ∃ nodes : Program,
      (⟨.empty, []⟩ : Session (List Call)).load (Answers.host ⟨fun _ => none, fun _ => 0⟩) 0
        ",'.,::\"" false = .ok (none, ⟨⟨nodes, ⟨some 5, some 5, []⟩, {}, {}⟩, []⟩) ∧
      step (Answers.host ⟨fun _ => none, fun _ => 0⟩) 0
        ⟨⟨nodes, ⟨some 5, some 5, []⟩, {}, {}⟩, []⟩ =
          .ok (none, ⟨⟨nodes, ⟨some 5, some 4, [⟨5, .argument⟩]⟩, {}, {}⟩, []⟩) ∧
      Machine.takesCharacter ⟨nodes, ⟨some 5, some 4, [⟨5, .argument⟩]⟩, {}, {}⟩ = true :=
    ⟨⟨#[some (.var 0), some (.lam 0), some (.leaf .get), some (.leaf .unit), some (.app 2 3),
      some (.app 1 4)], []⟩, by cbv, by cbv, by cbv⟩
  obtain ⟨hloaded, hrun⟩ := intact_of_reachable (.load .new hload)
  have hturns : Turns (Answers.host ⟨fun _ => none, fun _ => 0⟩)
      (some 2, ⟨⟨nodes, ⟨some 5, some 5, []⟩, {}, {}⟩, []⟩)
      (some 1, ⟨⟨nodes, ⟨some 5, some 4, [⟨5, .argument⟩]⟩, {}, {}⟩, []⟩) :=
    ⟨rfl, rfl, 0, _, hstep, rfl⟩
  exact ⟨_, _, hload, hloaded, .single hturns, rfl, htakes, hrun _ _ _ (.single hturns)⟩

end Session

end LambdaMachine
