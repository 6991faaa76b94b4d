import LambdaMachine.Arena.Lemmas
import LambdaMachine.Term.Basic
import Mathlib.Data.List.Nodup

/-!
# Terms in their slots

A layout is a term together with the slot of each of its nodes. An arena holds a layout
if the nodes in these slots link to each other as the term says; one node may stand in
two places, as long as no node is below itself. In a tree no slot occurs twice.

What an arena holds depends on the slots of the layout only (`Holds.congr`), and a slot
is the root of one layout at most (`Holds.det`).
-/

namespace LambdaMachine

variable {α : Type}

/-- A term together with the slots of its nodes. -/
inductive Layout (α : Type) where
  | lam (ref : Ref) (body : Layout α)
  | app (ref : Ref) (function argument : Layout α)
  | var (ref : Ref) (index : Nat)
  | leaf (ref : Ref) (value : α)
  deriving DecidableEq, Repr, Inhabited

namespace Layout

/-- The slot of the outermost node. -/
def root : Layout α → Ref
  | lam ref _ => ref
  | app ref _ _ => ref
  | var ref _ => ref
  | leaf ref _ => ref

/-- The outermost node. -/
def node : Layout α → Node α
  | lam _ body => .lam body.root
  | app _ function argument => .app function.root argument.root
  | var _ index => .var index
  | leaf _ value => .leaf value

/-- The term without its slots. -/
def term : Layout α → Term α
  | lam _ body => .lam body.term
  | app _ function argument => .app function.term argument.term
  | var _ index => .var index
  | leaf _ value => .leaf value

/-- The slots, a parent before its children and these from left to right. -/
def refs : Layout α → List Ref
  | lam ref body => ref :: body.refs
  | app ref function argument => ref :: (function.refs ++ argument.refs)
  | var ref _ => [ref]
  | leaf ref _ => [ref]

theorem root_mem_refs (layout : Layout α) : layout.root ∈ layout.refs := by
  cases layout <;> simp [root, refs]

theorem length_refs (layout : Layout α) : layout.refs.length = layout.term.size := by
  induction layout with
  | lam ref body ih => simp [refs, term, Term.size, ih]
  | app ref function argument ihf iha => simp [refs, term, Term.size, ihf, iha]
  | var ref index => rfl
  | leaf ref value => rfl

theorem isApp_node (layout : Layout α) : layout.node.isApp = layout.term.isApp := by
  cases layout <;> rfl

theorem exists_of_isApp {layout : Layout α} (happ : layout.term.isApp = true) :
    ∃ ref function argument, layout = app ref function argument := by
  cases layout with
  | app ref function argument => exact ⟨ref, function, argument, rfl⟩
  | _ => simp [term, Term.isApp] at happ

theorem exists_of_term_lam {layout : Layout α} {body : Term α} (hterm : layout.term = .lam body) :
    ∃ ref below, layout = lam ref below ∧ below.term = body := by
  cases layout with
  | lam ref below => exact ⟨ref, below, rfl, Term.lam.inj hterm⟩
  | _ => cases hterm

theorem exists_of_term_leaf {layout : Layout α} {value : α} (hterm : layout.term = .leaf value) :
    ∃ ref, layout = leaf ref value := by
  cases layout with
  | leaf ref value' => exact ⟨ref, by rw [Term.leaf.inj hterm]⟩
  | _ => cases hterm

end Layout

namespace Arena

/-- The slots of the layout hold its nodes. -/
def Holds (arena : Arena α) : Layout α → Prop
  | .lam ref body => arena.node? ref = some (.lam body.root) ∧ arena.Holds body
  | .app ref function argument =>
      arena.node? ref = some (.app function.root argument.root) ∧ arena.Holds function ∧
        arena.Holds argument
  | .var ref index => arena.node? ref = some (.var index)
  | .leaf ref value => arena.node? ref = some (.leaf value)

/-- The slots of the layout hold its nodes, and no slot holds two of them. -/
structure IsTree (arena : Arena α) (layout : Layout α) : Prop where
  holds : arena.Holds layout
  nodup : layout.refs.Nodup

namespace Holds

variable {arena arena' : Arena α} {layout layout' : Layout α}

theorem node?_root (hholds : arena.Holds layout) : arena.node? layout.root = some layout.node := by
  cases layout with
  | lam ref body => exact hholds.1
  | app ref function argument => exact hholds.1
  | var ref index => exact hholds
  | leaf ref value => exact hholds

theorem read_root (hholds : arena.Holds layout) : arena.read layout.root = .ok layout.node :=
  read_eq_ok_iff.2 hholds.node?_root

theorem isApp_root (hholds : arena.Holds layout) :
    arena.isApp layout.root = .ok layout.term.isApp := by
  simp only [isApp, hholds.read_root, bind, Except.bind, pure, Except.pure, layout.isApp_node]

theorem isSome_of_mem (hholds : arena.Holds layout) {ref : Ref} (hmem : ref ∈ layout.refs) :
    (arena.node? ref).isSome := by
  induction layout with
  | lam parent body ih =>
      rcases List.mem_cons.1 hmem with rfl | hmem
      · simp [hholds.1]
      · exact ih hholds.2 hmem
  | app parent function argument ihf iha =>
      rcases List.mem_cons.1 hmem with rfl | hmem
      · simp [hholds.1]
      · rcases List.mem_append.1 hmem with hmem | hmem
        · exact ihf hholds.2.1 hmem
        · exact iha hholds.2.2 hmem
  | var parent index => simp [List.mem_singleton.1 hmem, show arena.node? parent = _ from hholds]
  | leaf parent value => simp [List.mem_singleton.1 hmem, show arena.node? parent = _ from hholds]

/-- What the other slots hold does not matter. -/
theorem congr (hholds : arena.Holds layout)
    (hsame : ∀ ref ∈ layout.refs, arena'.node? ref = arena.node? ref) : arena'.Holds layout := by
  induction layout with
  | lam ref body ih =>
      refine ⟨(hsame ref List.mem_cons_self).trans hholds.1, ih hholds.2 fun other hmem => ?_⟩
      exact hsame other (List.mem_cons_of_mem _ hmem)
  | app ref function argument ihf iha =>
      refine ⟨(hsame ref List.mem_cons_self).trans hholds.1,
        ihf hholds.2.1 fun other hmem => ?_, iha hholds.2.2 fun other hmem => ?_⟩
      · exact hsame other (List.mem_cons_of_mem _ (List.mem_append_left _ hmem))
      · exact hsame other (List.mem_cons_of_mem _ (List.mem_append_right _ hmem))
  | var ref index => exact (hsame ref List.mem_cons_self).trans hholds
  | leaf ref value => exact (hsame ref List.mem_cons_self).trans hholds

theorem node_eq (hleft : arena.Holds layout) (hright : arena.Holds layout')
    (hroot : layout.root = layout'.root) : layout.node = layout'.node := by
  have hnode := hleft.node?_root
  rw [hroot, hright.node?_root] at hnode
  exact (Option.some.inj hnode).symm

/-- A slot is the root of one layout at most. -/
theorem det (hleft : arena.Holds layout) (hright : arena.Holds layout')
    (hroot : layout.root = layout'.root) : layout = layout' := by
  induction layout generalizing layout' with
  | lam ref body ih =>
      have hnode := hleft.node_eq hright hroot
      cases layout' with
      | lam ref' body' =>
          have hbody : body.root = body'.root := by simpa [Layout.node] using hnode
          rw [show ref = ref' from hroot, ih hleft.2 hright.2 hbody]
      | _ => simp [Layout.node] at hnode
  | app ref function argument ihf iha =>
      have hnode := hleft.node_eq hright hroot
      cases layout' with
      | app ref' function' argument' =>
          obtain ⟨hfunction, hargument⟩ : function.root = function'.root ∧
              argument.root = argument'.root := by simpa [Layout.node] using hnode
          rw [show ref = ref' from hroot, ihf hleft.2.1 hright.2.1 hfunction,
            iha hleft.2.2 hright.2.2 hargument]
      | _ => simp [Layout.node] at hnode
  | var ref index =>
      have hnode := hleft.node_eq hright hroot
      cases layout' with
      | var ref' index' =>
          rw [show ref = ref' from hroot, show index = index' by simpa [Layout.node] using hnode]
      | _ => simp [Layout.node] at hnode
  | leaf ref value =>
      have hnode := hleft.node_eq hright hroot
      cases layout' with
      | leaf ref' value' =>
          rw [show ref = ref' from hroot, show value = value' by simpa [Layout.node] using hnode]
      | _ => simp [Layout.node] at hnode

end Holds

theorem isTree_lam {arena : Arena α} {ref : Ref} {body : Layout α} :
    arena.IsTree (.lam ref body) ↔
      arena.node? ref = some (.lam body.root) ∧ ref ∉ body.refs ∧ arena.IsTree body := by
  constructor
  · rintro ⟨⟨hnode, hbody⟩, hnodup⟩
    obtain ⟨hnot, hnodup⟩ := List.nodup_cons.mp hnodup
    exact ⟨hnode, hnot, hbody, hnodup⟩
  · rintro ⟨hnode, hnot, hbody, hnodup⟩
    exact ⟨⟨hnode, hbody⟩, List.nodup_cons.mpr ⟨hnot, hnodup⟩⟩

theorem isTree_app {arena : Arena α} {ref : Ref} {function argument : Layout α} :
    arena.IsTree (.app ref function argument) ↔
      arena.node? ref = some (.app function.root argument.root) ∧
        (ref ∉ function.refs ∧ ref ∉ argument.refs) ∧
        function.refs.Disjoint argument.refs ∧ arena.IsTree function ∧ arena.IsTree argument := by
  constructor
  · rintro ⟨⟨hnode, hfunction, hargument⟩, hnodup⟩
    obtain ⟨hnot, hnodup⟩ := List.nodup_cons.mp hnodup
    obtain ⟨hnodupf, hnodupa, hdisjoint⟩ := List.nodup_append'.mp hnodup
    exact ⟨hnode, by simpa using hnot, hdisjoint, ⟨hfunction, hnodupf⟩, hargument, hnodupa⟩
  · rintro ⟨hnode, hnot, hdisjoint, ⟨hfunction, hnodupf⟩, hargument, hnodupa⟩
    refine ⟨⟨hnode, hfunction, hargument⟩, List.nodup_cons.mpr ⟨by simpa using hnot, ?_⟩⟩
    exact List.nodup_append'.mpr ⟨hnodupf, hnodupa, hdisjoint⟩

end Arena

end LambdaMachine
