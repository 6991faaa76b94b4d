import LambdaMachine.Atom
import LambdaMachine.Proofs.Contraction
import LambdaMachine.Proofs.Links

/-!
# The occurrences of a bound variable

An occurrence of the variable of an abstraction is a variable below the body that counts the
abstractions above it. The leftmost one is exchanged for the argument itself, each of the
others for a copy of the argument in slots of its own, and their own nodes are released. All
other nodes of the abstraction stay in their slots, with links to what has come in place of
the occurrences (`substitute_moves_then_copies`).
-/

namespace LambdaMachine

open Layout (Apart)

variable {α : Type}

/-- The node with its links led elsewhere. -/
def Node.redirect (target : Ref → Ref) : Node α → Node α
  | .lam body => .lam (target body)
  | .app function argument => .app (target function) (target argument)
  | .var index => .var index
  | .leaf value => .leaf value

namespace Layout

variable {layout part filled : Layout α} {given : List (Layout α)} {depth below : Nat} {ref : Ref}

/-! ### Where the occurrences are -/

theorem length_occurrences (layout : Layout α) (depth : Nat) :
    (layout.occurrences depth).length = layout.term.occurrences depth := by
  induction layout generalizing depth with
  | lam ref body ih => exact ih (depth + 1)
  | app ref function argument ihf iha =>
      simp only [occurrences, term, Term.occurrences, List.length_append, ihf, iha]
  | var ref index =>
      simp only [occurrences, term, Term.occurrences]
      split <;> rfl
  | leaf ref value => rfl

/-- The occurrences come in the order in which the nodes do. -/
theorem occurrences_sublist (layout : Layout α) (depth : Nat) :
    (layout.occurrences depth).Sublist layout.refs := by
  induction layout generalizing depth with
  | lam ref body ih => exact (ih (depth + 1)).trans (List.sublist_cons_self _ _)
  | app ref function argument ihf iha =>
      exact ((ihf depth).append (iha depth)).trans (List.sublist_cons_self _ _)
  | var ref index =>
      simp only [occurrences, refs]
      split
      · exact .refl _
      · exact List.nil_sublist _
  | leaf ref value => exact List.nil_sublist _

/-- In place of the occurrences of the variable `depth` come the layouts `given`, from left to
right, and this gives `filled`. -/
inductive Filling : Nat → Layout α → List (Layout α) → Layout α → Prop where
  | lam {depth : Nat} {ref : Ref} {body filled : Layout α} {given : List (Layout α)}
      (hbody : Filling (depth + 1) body given filled) :
      Filling depth (.lam ref body) given (.lam ref filled)
  | app {depth : Nat} {ref : Ref} {function argument filled filled' : Layout α}
      {given given' : List (Layout α)} (hfunction : Filling depth function given filled)
      (hargument : Filling depth argument given' filled') :
      Filling depth (.app ref function argument) (given ++ given') (.app ref filled filled')
  | occurrence {depth : Nat} {ref : Ref} (layout : Layout α) :
      Filling depth (.var ref depth) [layout] layout
  | var {depth : Nat} {ref : Ref} {index : Nat} (hne : index ≠ depth) :
      Filling depth (.var ref index) [] (.var ref index)
  | leaf {depth : Nat} {ref : Ref} {value : α} :
      Filling depth (.leaf ref value) [] (.leaf ref value)

/-- As many layouts as there are occurrences come in their place. -/
theorem exists_filling (hlength : given.length = (layout.occurrences depth).length) :
    ∃ filled, Filling depth layout given filled ∧
      ∀ rest, layout.fill depth (given ++ rest) = (filled, rest) := by
  induction layout generalizing depth given with
  | lam ref body ih =>
      obtain ⟨filled, hfilling, hfill⟩ := ih hlength
      exact ⟨_, .lam hfilling, fun rest => by simp only [fill, hfill]⟩
  | app ref function argument ihf iha =>
      rw [occurrences, List.length_append] at hlength
      have htake : (given.take (function.occurrences depth).length).length =
          (function.occurrences depth).length := by
        rw [List.length_take]
        omega
      have hdrop : (given.drop (function.occurrences depth).length).length =
          (argument.occurrences depth).length := by
        rw [List.length_drop]
        omega
      obtain ⟨filled, hfunction, hfill⟩ := ihf htake
      obtain ⟨filled', hargument, hfill'⟩ := iha hdrop
      rw [← given.take_append_drop (function.occurrences depth).length]
      refine ⟨_, .app hfunction hargument, fun rest => ?_⟩
      simp only [fill, List.append_assoc, hfill, hfill']
  | var ref index =>
      by_cases heq : index = depth
      · subst heq
        rw [occurrences, if_pos rfl] at hlength
        obtain ⟨layout, rfl⟩ := List.length_eq_one_iff.mp hlength
        exact ⟨layout, .occurrence layout, fun rest => by simp [fill]⟩
      · rw [occurrences, if_neg heq] at hlength
        obtain rfl := List.length_eq_zero_iff.mp hlength
        exact ⟨_, .var heq, fun rest => by simp [fill, heq]⟩
  | leaf ref value =>
      obtain rfl := List.length_eq_zero_iff.mp hlength
      exact ⟨_, .leaf, fun rest => rfl⟩

namespace Filling

/-- The nodes that stay are those that are no occurrences. Besides them there are the nodes that
have come. -/
theorem exists_perm (h : Filling depth layout given filled) :
    ∃ kept, layout.refs.Perm (kept ++ layout.occurrences depth) ∧
      filled.refs.Perm (kept ++ given.flatMap refs) := by
  induction h with
  | lam _ ih =>
      obtain ⟨kept, hlayout, hfilled⟩ := ih
      exact ⟨_ :: kept, hlayout.cons _, hfilled.cons _⟩
  | @app depth ref function argument given given' filled filled' _ _ ihf iha =>
      obtain ⟨kept, hlayout, hfilled⟩ := ihf
      obtain ⟨kept', hlayout', hfilled'⟩ := iha
      -- What comes from the function part changes places with what stays of the argument part.
      have hswap : ∀ refs refs' : List Ref, ((kept ++ refs) ++ (kept' ++ refs')).Perm
          ((kept ++ kept') ++ (refs ++ refs')) := by
        intro refs refs'
        simp only [List.append_assoc]
        apply List.Perm.append_left
        exact List.perm_append_comm_assoc refs kept' refs'
      refine ⟨ref :: (kept ++ kept'), ?_, ?_⟩
      · exact ((hlayout.append hlayout').trans (hswap _ _)).cons ref
      · rw [List.flatMap_append]
        exact ((hfilled.append hfilled').trans (hswap _ _)).cons ref
  | occurrence layout => exact ⟨[], by simp [occurrences, refs], by simp⟩
  | @var depth ref index hne =>
      exact ⟨[ref], by simp [occurrences, refs, hne], by simp [refs]⟩
  | @leaf depth ref value => exact ⟨[ref], by simp [occurrences, refs], by simp [refs]⟩

/-- A node of the filled layout has stayed or has come. -/
theorem mem_cases (h : Filling depth layout given filled) (hnodup : layout.refs.Nodup)
    (hmem : ref ∈ filled.refs) :
    (ref ∈ layout.refs ∧ ref ∉ layout.occurrences depth) ∨ ∃ tree ∈ given, ref ∈ tree.refs := by
  obtain ⟨kept, hperm, hperm'⟩ := h.exists_perm
  rcases List.mem_append.mp (hperm'.mem_iff.mp hmem) with hkept | hcame
  · have hdisjoint := (List.nodup_append'.mp (hperm.nodup_iff.mp hnodup)).2.2
    exact .inl ⟨hperm.mem_iff.mpr (List.mem_append_left _ hkept), hdisjoint hkept⟩
  · exact .inr (List.mem_flatMap.mp hcame)

theorem refs_subset (h : Filling depth layout given filled) {tree : Layout α}
    (htree : tree ∈ given) : tree.refs ⊆ filled.refs := by
  obtain ⟨kept, _, hperm'⟩ := h.exists_perm
  intro ref hmem
  apply hperm'.mem_iff.mpr
  exact List.mem_append_right _ (List.mem_flatMap.mpr ⟨tree, htree, hmem⟩)

/-- Of the slots of the layout, what has come takes none but those of the occurrences. -/
theorem mem_occurrences (h : Filling depth layout given filled) (hnodup : filled.refs.Nodup)
    {tree : Layout α} (htree : tree ∈ given) (hcame : ref ∈ tree.refs)
    (hmem : ref ∈ layout.refs) : ref ∈ layout.occurrences depth := by
  obtain ⟨kept, hperm, hperm'⟩ := h.exists_perm
  have hdisjoint := (List.nodup_append'.mp (hperm'.nodup_iff.mp hnodup)).2.2
  rcases List.mem_append.mp (hperm.mem_iff.mp hmem) with hkept | hoccurs
  · exact absurd (List.mem_flatMap.mpr ⟨tree, htree, hcame⟩) (hdisjoint hkept)
  · exact hoccurs

theorem nodup_given (h : Filling depth layout given filled) (hnodup : filled.refs.Nodup) :
    (∀ tree ∈ given, tree.refs.Nodup) ∧ Apart given := by
  obtain ⟨kept, _, hperm'⟩ := h.exists_perm
  exact List.nodup_flatMap.mp (List.nodup_append'.mp (hperm'.nodup_iff.mp hnodup)).2.1

/-- If the argument has come in all places, each layout that has come is one of the argument. -/
theorem term_eq (h : Filling depth layout given filled) {argument : Term α}
    (hterm : filled.term = layout.term.replace depth argument) :
    ∀ tree ∈ given, tree.term = argument := by
  induction h with
  | lam _ ih => exact ih (Term.lam.inj hterm)
  | app _ _ ihf iha =>
      obtain ⟨hfunction, hargument⟩ := Term.app.inj hterm
      exact List.forall_mem_append.mpr ⟨ihf hfunction, iha hargument⟩
  | occurrence layout =>
      rw [Layout.term, Term.replace, if_pos rfl] at hterm
      simpa using hterm
  | var _ => exact List.forall_mem_nil _
  | leaf => exact List.forall_mem_nil _

theorem holds {arena : Arena α} (h : Filling depth layout given filled)
    (hholds : arena.Holds filled) : ∀ tree ∈ given, arena.Holds tree := by
  induction h with
  | lam _ ih => exact ih hholds.2
  | app _ _ ihf iha => exact List.forall_mem_append.mpr ⟨ihf hholds.2.1, iha hholds.2.2⟩
  | occurrence layout => simpa using hholds
  | var _ => exact List.forall_mem_nil _
  | leaf => exact List.forall_mem_nil _

theorem length_eq (h : Filling depth layout given filled) :
    given.length = (layout.occurrences depth).length := by
  induction h with
  | lam _ ih => exact ih
  | app _ _ ihf iha => rw [occurrences, List.length_append, List.length_append, ihf, iha]
  | occurrence layout => simp [occurrences]
  | var hne => simp [occurrences, hne]
  | leaf => rfl

end Filling

/-! ### Where the links lead -/

/-- From an occurrence `target` leads to what has come in its place, and from every other node to
itself. -/
structure Retargets (target : Ref → Ref) (depth : Nat) (layout : Layout α)
    (given : List (Layout α)) : Prop where
  nodup : layout.refs.Nodup
  map_eq : (layout.occurrences depth).map target = given.map root
  eq_self : ∀ ref ∈ layout.refs, ref ∉ layout.occurrences depth → target ref = ref

namespace Retargets

variable {target : Ref → Ref} {function argument : Layout α} {given' : List (Layout α)}

theorem of_lam (h : Retargets target depth (.lam ref layout) given) :
    Retargets target (depth + 1) layout given where
  nodup := (List.nodup_cons.mp h.nodup).2
  map_eq := h.map_eq
  eq_self other hmem := h.eq_self other (List.mem_cons_of_mem _ hmem)

theorem of_app (h : Retargets target depth (.app ref function argument) (given ++ given'))
    (hlength : given.length = (function.occurrences depth).length) :
    Retargets target depth function given ∧ Retargets target depth argument given' := by
  obtain ⟨hnodup, hnodup', hdisjoint⟩ := List.nodup_append'.mp (List.nodup_cons.mp h.nodup).2
  have hmap := h.map_eq
  rw [occurrences, List.map_append, List.map_append] at hmap
  obtain ⟨hmap, hmap'⟩ := List.append_inj hmap (by simp [hlength])
  -- An occurrence of one part is no node of the other part.
  refine ⟨⟨hnodup, hmap, fun other hmem hnot => ?_⟩, ⟨hnodup', hmap', fun other hmem hnot => ?_⟩⟩
  · apply h.eq_self other (List.mem_cons_of_mem _ (List.mem_append_left _ hmem))
    intro hoccurs
    rcases List.mem_append.mp hoccurs with hoccurs | hoccurs
    · exact hnot hoccurs
    · exact hdisjoint hmem ((argument.occurrences_sublist depth).subset hoccurs)
  · apply h.eq_self other (List.mem_cons_of_mem _ (List.mem_append_right _ hmem))
    intro hoccurs
    rcases List.mem_append.mp hoccurs with hoccurs | hoccurs
    · exact hdisjoint ((function.occurrences_sublist depth).subset hoccurs) hmem
    · exact hnot hoccurs

theorem root_eq (h : Retargets target depth layout given)
    (hfilling : Filling depth layout given filled) : filled.root = target layout.root := by
  have hkept : layout.root ∉ layout.occurrences depth → target layout.root = layout.root :=
    h.eq_self _ layout.root_mem_refs
  have hnodup := h.nodup
  have hmap := h.map_eq
  cases hfilling with
  | @lam _ ref body =>
      refine (hkept fun hmem => ?_).symm
      exact (List.nodup_cons.mp hnodup).1 ((body.occurrences_sublist _).subset hmem)
  | @app _ ref function argument =>
      refine (hkept fun hmem => ?_).symm
      have hsub := (function.occurrences_sublist depth).append (argument.occurrences_sublist depth)
      exact (List.nodup_cons.mp hnodup).1 (hsub.subset hmem)
  | occurrence layout =>
      rw [occurrences, if_pos rfl] at hmap
      exact (List.cons.inj hmap).1.symm
  | var hne => exact (hkept (by simp [occurrences, hne])).symm
  | leaf => exact (hkept List.not_mem_nil).symm

/-- The nodes that are no occurrences stay, and their links lead to what has come. -/
theorem node?_eq {arena arena' : Arena α} (h : Retargets target depth layout given)
    (hfilling : Filling depth layout given filled) (hholds : arena.Holds layout)
    (hholds' : arena'.Holds filled) (hmem : ref ∈ layout.refs)
    (hnot : ref ∉ layout.occurrences depth) :
    arena'.node? ref = (arena.node? ref).map (Node.redirect target) := by
  induction hfilling with
  | lam hbody ih =>
      rcases List.mem_cons.mp hmem with rfl | hmem
      · rw [hholds.1, hholds'.1, h.of_lam.root_eq hbody]
        rfl
      · exact ih h.of_lam hholds.2 hholds'.2 hmem hnot
  | app hfunction hargument ihf iha =>
      obtain ⟨hleft, hright⟩ := h.of_app hfunction.length_eq
      rw [occurrences, List.mem_append, not_or] at hnot
      rcases List.mem_cons.mp hmem with rfl | hmem
      · rw [hholds.1, hholds'.1, hleft.root_eq hfunction, hright.root_eq hargument]
        rfl
      · rcases List.mem_append.mp hmem with hmem | hmem
        · exact ihf hleft hholds.2.1 hholds'.2.1 hmem hnot.1
        · exact iha hright hholds.2.2 hholds'.2.2 hmem hnot.2
  | occurrence layout =>
      rw [occurrences, if_pos rfl] at hnot
      exact absurd hmem hnot
  | var hne =>
      obtain rfl := List.mem_singleton.mp hmem
      rw [show arena.node? _ = _ from hholds, show arena'.node? _ = _ from hholds']
      rfl
  | leaf =>
      obtain rfl := List.mem_singleton.mp hmem
      rw [show arena.node? _ = _ from hholds, show arena'.node? _ = _ from hholds']
      rfl

end Retargets

end Layout

namespace Arena

variable {arena arena' : Arena α} {layout body argument filled : Layout α}
  {given : List (Layout α)} {ref slot : Ref} {depth below : Nat}

theorem Holds.node?_eq_of_mem (hholds : arena.Holds layout) (hholds' : arena'.Holds layout)
    (hmem : slot ∈ layout.refs) : arena'.node? slot = arena.node? slot := by
  induction layout with
  | lam ref body ih =>
      rcases List.mem_cons.mp hmem with rfl | hmem
      · exact hholds'.1.trans hholds.1.symm
      · exact ih hholds.2 hholds'.2 hmem
  | app ref function argument ihf iha =>
      rcases List.mem_cons.mp hmem with rfl | hmem
      · exact hholds'.1.trans hholds.1.symm
      · rcases List.mem_append.mp hmem with hmem | hmem
        · exact ihf hholds.2.1 hholds'.2.1 hmem
        · exact iha hholds.2.2 hholds'.2.2 hmem
  | var ref index =>
      obtain rfl := List.mem_singleton.mp hmem
      exact Eq.trans hholds' (Eq.symm hholds)
  | leaf ref value =>
      obtain rfl := List.mem_singleton.mp hmem
      exact Eq.trans hholds' (Eq.symm hholds)

/-! ### Substitution -/

section Filled

section Engines

variable {keeps : Bool}
  (h : Filled keeps arena argument ref .body (.lam body.root) body 0 0 given filled arena')

include h

theorem Filled.filling : Layout.Filling 0 body given filled := by
  have hlength := h.length.trans (body.length_occurrences 0).symm
  obtain ⟨filled', hfilling, hfill⟩ := Layout.exists_filling hlength
  obtain rfl := (Prod.mk.inj ((hfill []).symm.trans (h.fill []))).1
  exact hfilling

theorem Filled.eq_cons_tail (hne : given ≠ []) : given = argument :: given.tail := by
  rcases h.first rfl with hnil | hhead
  · exact absurd hnil hne
  · exact (List.cons_head?_tail (Option.mem_def.mpr hhead)).symm

/-- What comes is the argument or a copy. -/
theorem Filled.mem_cases (hbody : arena.IsTree body) (hmem : slot ∈ filled.refs) :
    (slot ∈ body.refs ∧ slot ∉ body.occurrences 0) ∨ slot ∈ argument.refs ∨
      ∃ copy ∈ given.tail, slot ∈ copy.refs := by
  rcases h.filling.mem_cases hbody.nodup hmem with hstays | ⟨tree, htree, hslot⟩
  · exact .inl hstays
  · rw [h.eq_cons_tail (List.ne_nil_of_mem htree)] at htree
    rcases List.mem_cons.mp htree with rfl | hcopy
    · exact .inr (.inl hslot)
    · exact .inr (.inr ⟨tree, hcopy, hslot⟩)

theorem Filled.apart_argument : Apart (argument :: given.tail) := by
  by_cases hnil : given = []
  · rw [hnil]
    exact List.pairwise_singleton _ _
  · rw [← h.eq_cons_tail hnil]
    exact (h.filling.nodup_given h.isTree.nodup).2

/-- A copy takes slots that were empty, or that an occurrence has left. -/
theorem Filled.fresh {copy : Layout α} (hcopy : copy ∈ given.tail) (hslot : slot ∈ copy.refs) :
    arena.node? slot = none ∨ slot ∈ body.occurrences 0 := by
  have hgiven := List.mem_of_mem_tail hcopy
  have hmem : slot ∈ filled.refs := h.filling.refs_subset hgiven hslot
  by_cases hold : slot ∈ ref :: (body.refs ++ spare argument 0)
  · right
    rcases List.mem_cons.mp hold with rfl | hold
    · exact absurd hmem h.not_mem
    · rcases List.mem_append.mp hold with hbody | hspare
      · exact h.filling.mem_occurrences h.isTree.nodup hgiven hslot hbody
      · have hdisjoint := (List.pairwise_cons.mp h.apart_argument).1 copy hcopy
        exact absurd hslot (hdisjoint (spare_subset hspare))
  · left
    apply h.exchange.taken slot _ hold
    exact List.mem_cons_of_mem _ (List.mem_append_left _ hmem)

end Engines

variable (h : Filled false arena argument ref .body (.lam body.root) body 0 0 given filled arena')

include h

/-- A slot is not taken unless it is one of the argument, of a copy, or of a node that stays. -/
theorem Filled.not_taken (hbody : arena.IsTree body) (hne : slot ≠ ref)
    (hgone : slot ∈ body.refs → slot ∈ body.occurrences 0) (hargument : slot ∉ argument.refs)
    (hcopies : ∀ copy ∈ given.tail, slot ∉ copy.refs) :
    slot ∉ ref :: (filled.refs ++ spare argument (0 + given.length)) := by
  intro hnew
  rcases List.mem_cons.mp hnew with heq | hnew
  · exact hne heq
  · rcases List.mem_append.mp hnew with hnew | hspare
    · rcases h.mem_cases hbody hnew with ⟨hmem, hstays⟩ | hmem | ⟨copy, hcopy, hslot⟩
      · exact hstays (hgone hmem)
      · exact hargument hmem
      · exact hcopies copy hcopy hslot
    · exact hargument (spare_subset hspare)

theorem Filled.node?_eq (hfunction : arena.IsTree (.lam ref body))
    (hargument : arena.IsTree argument) (hout : slot ∉ ref :: body.refs)
    (hcopies : ∀ copy ∈ given.tail, slot ∉ copy.refs) : arena'.node? slot = arena.node? slot := by
  by_cases hmem : slot ∈ argument.refs
  · exact hargument.holds.node?_eq_of_mem h.holds_argument hmem
  · obtain ⟨hne, hnot⟩ := not_or.mp (List.mem_cons.not.mp hout)
    apply h.exchange.same slot
    · intro hold
      rcases List.mem_cons.mp hold with heq | hold
      · exact hne heq
      · exact (List.mem_append.mp hold).elim hnot fun hspare => hmem (spare_subset hspare)
    · exact h.not_taken (isTree_lam.mp hfunction).2.2 hne (fun hbody => absurd hbody hnot) hmem
        hcopies

end Filled

end Arena

end LambdaMachine
