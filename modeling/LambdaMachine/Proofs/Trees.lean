import LambdaMachine.Arena.Tree
import LambdaMachine.Proofs.Exchange
import LambdaMachine.Proofs.Finishing

/-!
# Releasing and copying trees

Each of the three walks over a tree finishes and has the footprint that its purpose
asks for: releasing gives up the slots of the tree, copying and transplanting take as
many new ones. The source of a copy may share nodes, its result never does.
-/

namespace LambdaMachine.Arena

variable {α β : Type} {arena : Arena α} {layout : Layout α}

/-! ### Releasing -/

theorem Holds.exists_releaseVisit (hholds : arena.Holds layout) :
    ∃ arena', Finishes (fun _ => releaseVisit layout.root arena) (layout.node.children, arena') ∧
      Exchange arena [layout.root] [] arena' := by
  obtain ⟨arena', hrelease, hexchange⟩ :=
    exists_release (hholds.isSome_of_mem layout.root_mem_refs)
  refine ⟨arena', .of_eq fun _ => ?_, hexchange⟩
  simp only [releaseVisit, hholds.read_root, hrelease, bind, Except.bind, pure, Except.pure]

theorem IsTree.walks_release (htree : arena.IsTree layout) :
    ∃ arena', Walks (fun _ => releaseVisit) [layout.root] arena arena' ∧
      Exchange arena layout.refs [] arena' := by
  induction layout generalizing arena with
  | lam ref body ih =>
      obtain ⟨arena₁, hvisit, hroot⟩ := htree.holds.exists_releaseVisit
      obtain ⟨_, hnot, hbody⟩ := isTree_lam.mp htree
      obtain ⟨arena₂, hwalk, hbelow⟩ := ih (hroot.isTree hbody (List.disjoint_singleton.mpr hnot))
      exact ⟨arena₂, .of_visit hvisit hwalk, (hroot.frame body.refs).trans hbelow⟩
  | app ref function argument ihf iha =>
      obtain ⟨arena₁, hvisit, hroot⟩ := htree.holds.exists_releaseVisit
      obtain ⟨_, ⟨hnotf, hnota⟩, hdisjoint, hfunction, hargument⟩ := isTree_app.mp htree
      obtain ⟨arena₂, hwalkf, hleft⟩ :=
        ihf (hroot.isTree hfunction (List.disjoint_singleton.mpr hnotf))
      have hargument₁ := hroot.isTree hargument (List.disjoint_singleton.mpr hnota)
      obtain ⟨arena₃, hwalka, hright⟩ :=
        iha (hleft.isTree hargument₁ (List.disjoint_symm hdisjoint))
      refine ⟨arena₃, .of_visit hvisit (.pair hwalkf hwalka), ?_⟩
      exact (hroot.frame _).trans ((hleft.frame argument.refs).trans hright)
  | var ref index =>
      obtain ⟨arena₁, hvisit, hroot⟩ := htree.holds.exists_releaseVisit
      exact ⟨arena₁, .leaf hvisit, hroot⟩
  | leaf ref value =>
      obtain ⟨arena₁, hvisit, hroot⟩ := htree.holds.exists_releaseVisit
      exact ⟨arena₁, .leaf hvisit, hroot⟩

/-- Releasing a tree gives up its slots. -/
theorem IsTree.finishes_releaseTree (htree : arena.IsTree layout) :
    ∃ arena', Finishes (fun fuel => arena.releaseTree fuel layout.root) arena' ∧
      Exchange arena layout.refs [] arena' := by
  obtain ⟨arena', hwalk, hexchange⟩ := htree.walks_release
  exact ⟨arena', hwalk.finishes, hexchange⟩

/-! ### Copying -/

theorem copyNode_eq {ref : Ref} {node : Node α} {pair : Ref × Arena α}
    (hnode : arena.node? ref = some node) (halloc : arena.alloc node = pair) :
    arena.copyNode ref = .ok pair := by
  simp only [copyNode, read_eq_ok_iff.mpr hnode, halloc, bind, Except.bind, pure, Except.pure]

/-- A slot that holds a copy of the outermost node of a layout, with the children of the
layout, is given children of its own. Each slot of the copy is visited once. -/
theorem WellFormed.visits_clone (hwf : arena.WellFormed) {copy : Ref}
    (hholds : arena.Holds layout) (hcopy : arena.node? copy = some layout.node)
    (hnot : copy ∉ layout.refs) :
    ∃ copied arena', copied.root = copy ∧ copied.term = layout.term ∧
      Visits cloneVisit [copy] arena copied.refs arena' ∧ arena'.IsTree copied ∧
      Exchange arena [copy] copied.refs arena' := by
  have hsome : (arena.node? copy).isSome := by simp [hcopy]
  have hread := read_eq_ok_iff.mpr hcopy
  -- The source is apart from the slots that are filled, so it is still there when its second
  -- part is copied.
  induction layout generalizing arena copy with
  | lam ref body ih =>
      obtain ⟨below, arena₁, arena₂, halloc, hwrite, hgrow, hne, hparent, hchild⟩ :=
        hwf.exists_grow hsome body.node .lam
      have hvisit : cloneVisit copy arena = .ok ([below], arena₂) := by
        simp only [cloneVisit, hread, Layout.node, copyNode_eq hholds.2.node?_root halloc,
          hwrite, bind, Except.bind, pure, Except.pure]
      have happart : body.refs.Disjoint [copy] :=
        List.disjoint_singleton.mpr (List.not_mem_of_not_mem_cons hnot)
      have hbelow : below ∉ body.refs := by
        have hdisjoint := hgrow.disjoint hholds.2 happart
        exact fun hmem => hdisjoint hmem (by simp)
      obtain ⟨copied, arena₃, rfl, hterm, hvisits, htree, hcopied⟩ := ih
        (hgrow.wellFormed hwf) (hgrow.holds hholds.2 happart) hchild hbelow (by simp [hchild])
        (read_eq_ok_iff.mpr hchild)
      obtain ⟨htree, hcopied⟩ := Exchange.isTree_lam hparent hne hcopied htree
      refine ⟨.lam copy copied, arena₃, rfl, ?_, .of_visit hvisit hvisits, htree,
        hgrow.trans hcopied⟩
      rw [Layout.term, Layout.term, hterm]
  | app ref function argument ihf iha =>
      obtain ⟨left, right, arena₁, arena₂, arena₃, halloc, halloc', hwrite, hleft, hgrow, hne,
        hparent, hchild, hchild'⟩ := hwf.exists_grow_pair hsome function.node argument.node .app
      have hargument₁ := hleft.holds hholds.2.2 (List.disjoint_nil_right _)
      have hvisit : cloneVisit copy arena = .ok ([left, right], arena₃) := by
        simp only [cloneVisit, hread, Layout.node, copyNode_eq hholds.2.1.node?_root halloc,
          copyNode_eq hargument₁.node?_root halloc', hwrite, bind, Except.bind, pure, Except.pure]
      simp only [Layout.refs, List.mem_cons, List.mem_append, not_or] at hnot
      have happartf : function.refs.Disjoint [copy] := List.disjoint_singleton.mpr hnot.2.1
      have happarta : argument.refs.Disjoint [copy] := List.disjoint_singleton.mpr hnot.2.2
      have hdisjointf := hgrow.disjoint hholds.2.1 happartf
      have hdisjointa := hgrow.disjoint hholds.2.2 happarta
      obtain ⟨copiedf, arena₄, rfl, htermf, hvisitsf, htreef, hcopiedf⟩ := ihf
        (hgrow.wellFormed hwf) (hgrow.holds hholds.2.1 happartf) hchild
        (fun hmem => hdisjointf hmem (by simp)) (by simp [hchild]) (read_eq_ok_iff.mpr hchild)
      have happart : argument.refs.Disjoint [copiedf.root] :=
        List.disjoint_singleton.mpr fun hmem => hdisjointa hmem (by simp)
      have hchild₄ : arena₄.node? right = some argument.node := by
        rw [hcopiedf.node?_eq (by simp [hchild']) (by simpa using hne.2.2.symm), hchild']
      obtain ⟨copieda, arena₅, rfl, hterma, hvisitsa, htreea, hcopieda⟩ := iha
        (hcopiedf.wellFormed (hgrow.wellFormed hwf))
        (hcopiedf.holds (hgrow.holds hholds.2.2 happarta) happart) hchild₄
        (fun hmem => hdisjointa hmem (by simp)) (by simp [hchild₄]) (read_eq_ok_iff.mpr hchild₄)
      obtain ⟨htree, hcopied⟩ := Exchange.isTree_app hparent hne (by simp [hchild']) hcopiedf
        htreef hcopieda htreea
      refine ⟨.app copy copiedf copieda, arena₅, rfl, ?_,
        .of_visit hvisit (hvisitsf.append hvisitsa), htree, hgrow.trans hcopied⟩
      rw [Layout.term, Layout.term, htermf, hterma]
  | var ref index =>
      refine ⟨.var copy index, arena, rfl, rfl, .leaf ?_, ⟨hcopy, ?_⟩, .refl _ _⟩
      · simp only [cloneVisit, hread, Layout.node, bind, Except.bind, pure, Except.pure]
      · exact List.nodup_singleton copy
  | leaf ref value =>
      refine ⟨.leaf copy value, arena, rfl, rfl, .leaf ?_, ⟨hcopy, ?_⟩, .refl _ _⟩
      · simp only [cloneVisit, hread, Layout.node, bind, Except.bind, pure, Except.pure]
      · exact List.nodup_singleton copy

/-- Copying stores the outermost node in a new slot and then visits every slot of the copy once,
among them no slot that held a node before. -/
theorem WellFormed.exists_copied (hwf : arena.WellFormed) (hholds : arena.Holds layout) :
    ∃ copied arena₁ arena', copied.term = layout.term ∧
      arena.copyNode layout.root = .ok (copied.root, arena₁) ∧
      Visits cloneVisit [copied.root] arena₁ copied.refs arena' ∧
      arena'.IsTree copied ∧ Exchange arena [] copied.refs arena' := by
  obtain ⟨copy, arena₁, halloc, hgrow, hcopy⟩ := hwf.exists_alloc layout.node
  have hnot : copy ∉ layout.refs := fun hmem =>
    hgrow.disjoint hholds (List.disjoint_nil_right _) hmem (by simp)
  obtain ⟨copied, arena₂, rfl, hterm, hvisits, htree, hcopied⟩ :=
    (hgrow.wellFormed hwf).visits_clone (hgrow.holds hholds (List.disjoint_nil_right _)) hcopy hnot
  exact ⟨copied, arena₁, arena₂, hterm, copyNode_eq hholds.node?_root halloc, hvisits, htree,
    hgrow.trans hcopied⟩

/-- Copying takes new slots for a tree of the same term. -/
theorem WellFormed.finishes_clone (hwf : arena.WellFormed) (hholds : arena.Holds layout) :
    ∃ copied arena', copied.term = layout.term ∧
      Finishes (fun fuel => arena.clone fuel layout.root) (copied.root, arena') ∧
      arena'.IsTree copied ∧ Exchange arena [] copied.refs arena' := by
  obtain ⟨copied, arena₁, arena', hterm, hcopy, hvisits, htree, hcopied⟩ :=
    hwf.exists_copied hholds
  exact ⟨copied, arena', hterm, .bind_ok hcopy (hvisits.finishes.bind (.pure _)), htree, hcopied⟩

/-! ### Transplanting -/

/-- A planted slot is filled with a tree of the same term, its leaves relabelled. -/
theorem WellFormed.walks_transplant {source : Arena α} {arena : Arena β} {relabel : α → β}
    (hwf : arena.WellFormed) (hholds : source.Holds layout) {target : Ref}
    (hsome : (arena.node? target).isSome) :
    ∃ planted arena', planted.root = target ∧ planted.term = layout.term.map relabel ∧
      Walks (fun _ => transplantVisit source relabel) [⟨layout.root, target⟩] arena arena' ∧
      arena'.IsTree planted ∧ Exchange arena [target] planted.refs arena' := by
  have hread := hholds.read_root
  induction layout generalizing arena target with
  | lam ref body ih =>
      obtain ⟨below, arena₁, arena₂, halloc, hwrite, hgrow, hne, hparent, hchild⟩ :=
        hwf.exists_grow hsome placeholder .lam
      have hvisit : Finishes (fun _ => transplantVisit source relabel ⟨ref, target⟩ arena)
          ([⟨body.root, below⟩], arena₂) := .of_eq fun _ => by
        simp only [transplantVisit, show source.read ref = _ from hread, Layout.node, halloc,
          hwrite, bind, Except.bind, pure, Except.pure]
      have hbelow : (arena₂.node? below).isSome := by simp [hchild]
      obtain ⟨planted, arena₃, rfl, hterm, hwalk, htree, hplanted⟩ := ih
        (hgrow.wellFormed hwf) hholds.2 hbelow hholds.2.read_root
      obtain ⟨htree, hplanted⟩ := Exchange.isTree_lam hparent hne hplanted htree
      refine ⟨.lam target planted, arena₃, rfl, ?_, .of_visit hvisit hwalk, htree,
        hgrow.trans hplanted⟩
      rw [Layout.term, Layout.term, Term.map, hterm]
  | app ref function argument ihf iha =>
      obtain ⟨left, right, arena₁, arena₂, arena₃, halloc, halloc', hwrite, _, hgrow, hne,
        hparent, hchild, hchild'⟩ := hwf.exists_grow_pair hsome placeholder placeholder .app
      have hvisit : Finishes (fun _ => transplantVisit source relabel ⟨ref, target⟩ arena)
          ([⟨function.root, left⟩, ⟨argument.root, right⟩], arena₃) := .of_eq fun _ => by
        simp only [transplantVisit, show source.read ref = _ from hread, Layout.node, halloc,
          halloc', hwrite, bind, Except.bind, pure, Except.pure]
      have hleft : (arena₃.node? left).isSome := by simp [hchild]
      obtain ⟨plantedf, arena₄, rfl, htermf, hwalkf, htreef, hplantedf⟩ := ihf
        (hgrow.wellFormed hwf) hholds.2.1 hleft hholds.2.1.read_root
      have hsome₄ : (arena₄.node? right).isSome := by
        rw [hplantedf.node?_eq (by simp [hchild']) (by simpa using hne.2.2.symm)]
        simp [hchild']
      obtain ⟨planteda, arena₅, rfl, hterma, hwalka, htreea, hplanteda⟩ := iha
        (hplantedf.wellFormed (hgrow.wellFormed hwf)) hholds.2.2 hsome₄ hholds.2.2.read_root
      obtain ⟨htree, hplanted⟩ := Exchange.isTree_app hparent hne (by simp [hchild']) hplantedf
        htreef hplanteda htreea
      refine ⟨.app target plantedf planteda, arena₅, rfl, ?_,
        .of_visit hvisit (.pair hwalkf hwalka), htree, hgrow.trans hplanted⟩
      rw [Layout.term, Layout.term, Term.map, htermf, hterma]
  | var ref index =>
      obtain ⟨arena₁, hwrite, hexchange, hnode⟩ := exists_write hsome (.var index)
      refine ⟨.var target index, arena₁, rfl, rfl, .leaf (.of_eq fun _ => ?_), ⟨hnode, ?_⟩,
        hexchange⟩
      · simp only [transplantVisit, hread, Layout.node, hwrite, bind, Except.bind, pure,
          Except.pure]
      · exact List.nodup_singleton target
  | leaf ref value =>
      obtain ⟨arena₁, hwrite, hexchange, hnode⟩ := exists_write hsome (.leaf (relabel value))
      refine ⟨.leaf target (relabel value), arena₁, rfl, rfl, .leaf (.of_eq fun _ => ?_),
        ⟨hnode, ?_⟩, hexchange⟩
      · simp only [transplantVisit, hread, Layout.node, hwrite, bind, Except.bind, pure,
          Except.pure]
      · exact List.nodup_singleton target

/-- Transplanting takes new slots for a tree of the relabelled term. -/
theorem WellFormed.finishes_transplant {source : Arena α} {arena : Arena β} (relabel : α → β)
    (hwf : arena.WellFormed) (hholds : source.Holds layout) :
    ∃ planted arena', planted.term = layout.term.map relabel ∧
      Finishes (fun fuel => source.transplant fuel layout.root relabel arena)
        (planted.root, arena') ∧
      arena'.IsTree planted ∧ Exchange arena [] planted.refs arena' := by
  obtain ⟨copy, arena₁, halloc, hgrow, hcopy⟩ := hwf.exists_alloc (placeholder : Node β)
  have hsome : (arena₁.node? copy).isSome := by simp [hcopy]
  obtain ⟨planted, arena₂, rfl, hterm, hwalk, htree, hplanted⟩ :=
    (hgrow.wellFormed hwf).walks_transplant hholds hsome
  refine ⟨planted, arena₂, hterm, ?_, htree, hgrow.trans hplanted⟩
  simp only [transplant, halloc]
  exact hwalk.finishes.bind (.pure _)

end LambdaMachine.Arena
