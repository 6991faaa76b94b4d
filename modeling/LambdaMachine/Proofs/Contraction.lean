import LambdaMachine.Arena.Grafting
import LambdaMachine.Proofs.Edits
import LambdaMachine.Proofs.Trees
import LambdaMachine.Term.Substitution

/-!
# Substitution in place

Substituting an argument tree puts it in place of the leftmost occurrence, and copies of
it in place of the others, and keeps all other nodes of the body where they are. As long
as no occurrence was found, the slots of the argument are spare: they belong to the
footprint, but not yet to the body. The occurrences are released, or left over by the
engine that keeps everything; the rest is the same for both engines.

The walk from a link keeps this invariant (`Target.walks`), so contracting and grafting
finish in a tree of the replaced term (`IsTree.finishes_beta`, `IsTree.finishes_graft`).
-/

namespace LambdaMachine

variable {α : Type}

/-- The slots of the occurrences of the variable `depth` from left to right. -/
def Layout.occurrences (depth : Nat) : Layout α → List Ref
  | .lam _ body => body.occurrences (depth + 1)
  | .app _ function argument => function.occurrences depth ++ argument.occurrences depth
  | .var ref index => if index = depth then [ref] else []
  | .leaf _ _ => []

/-- Put layouts in place of the occurrences of the variable `depth` from left to right,
and give those that are left over. -/
def Layout.fill : Layout α → Nat → List (Layout α) → Layout α × List (Layout α)
  | .lam ref body, depth, supply =>
      let (body, supply) := body.fill (depth + 1) supply
      (.lam ref body, supply)
  | .app ref function argument, depth, supply =>
      let (function, supply) := function.fill depth supply
      let (argument, supply) := argument.fill depth supply
      (.app ref function argument, supply)
  | .var ref index, depth, supply =>
      if index = depth then
        match supply with
        | [] => (.var ref index, [])
        | given :: supply => (given, supply)
      else (.var ref index, supply)
  | .leaf ref value, _, supply => (.leaf ref value, supply)

namespace Arena

/-- The slots of the argument, as long as no occurrence has received it. -/
def spare (argument : Layout α) (count : Nat) : List Ref :=
  if count = 0 then argument.refs else []

theorem spare_subset {argument : Layout α} {count : Nat} {ref : Ref}
    (hmem : ref ∈ spare argument count) : ref ∈ argument.refs := by
  unfold spare at hmem
  split at hmem
  · exact hmem
  · simp at hmem

theorem spare_of_add {argument : Layout α} {count more : Nat} {ref : Ref}
    (hmem : ref ∈ spare argument (count + more)) : ref ∈ spare argument count := by
  unfold spare at hmem ⊢
  split at hmem
  next hzero => rwa [if_pos (by omega)]
  next => simp at hmem

/-- A link to a tree in which occurrences are to be replaced by an argument apart from it. -/
structure Target (arena : Arena α) (argument : Layout α) (parent : Ref) (side : Side)
    (node : Node α) (layout : Layout α) : Prop where
  wellFormed : arena.WellFormed
  node?_parent : arena.node? parent = some node
  child? : node.child? side = some layout.root
  isTree : arena.IsTree layout
  isTree_argument : arena.IsTree argument
  not_mem : parent ∉ layout.refs
  apart : argument.refs.Disjoint (parent :: layout.refs)

/-- The slots of replaced occurrences that an engine leaves over. -/
def leftOver (keeps : Bool) (refs : List Ref) : List Ref :=
  cond keeps refs []

/-- The visit of the engine that leaves the occurrences over, or of the one that releases
them. -/
def visitOf (keeps : Bool) :
    Nat → Ref → Site → Substituted α → Except Fault (List Site × Substituted α) :=
  cond keeps graftVisit substituteVisit

/-- The tree behind a link has become another one, with `supply` in place of the
occurrences. These are left over or released. -/
structure Filled (keeps : Bool) (arena : Arena α) (argument : Layout α) (parent : Ref)
    (side : Side) (node : Node α) (layout : Layout α) (depth count : Nat)
    (supply : List (Layout α)) (filled : Layout α) (arena' : Arena α) : Prop where
  fill : ∀ rest, layout.fill depth (supply ++ rest) = (filled, rest)
  length : supply.length = layout.term.occurrences depth
  first : count = 0 → supply = [] ∨ supply.head? = some argument
  term : filled.term = layout.term.replace depth argument.term
  exchange : Exchange arena (parent :: (layout.refs ++ spare argument count))
    (parent :: (filled.refs ++ (leftOver keeps (layout.occurrences depth) ++
      spare argument (count + supply.length)))) arena'
  releases : arena.Releases (leftOver (!keeps) (layout.occurrences depth)) arena'
  node?_parent : ∃ changed, node.withChild? side filled.root = some changed ∧
    arena'.node? parent = some changed
  isTree : arena'.IsTree filled
  holds_argument : arena'.Holds argument
  not_mem : parent ∉ filled.refs
  apart : filled.refs.Disjoint (spare argument (count + supply.length))

@[simp]
theorem leftOver_nil (keeps : Bool) : leftOver keeps [] = [] := by
  cases keeps <;> rfl

theorem leftOver_append (keeps : Bool) (refs refs' : List Ref) :
    leftOver keeps (refs ++ refs') = leftOver keeps refs ++ leftOver keeps refs' := by
  cases keeps <;> rfl

/-! ### One link -/

section Link

variable {keeps : Bool} {arena : Arena α} {argument layout given : Layout α} {parent ref : Ref}
  {side : Side} {node : Node α} {index depth count : Nat}

theorem withChild?_of_child? (hchild : node.child? side = some ref) :
    node.withChild? side ref = some node := by
  cases node <;> cases side <;> simp_all [Node.child?, Node.withChild?]

theorem Target.child_eq (h : Target arena argument parent side node layout) :
    arena.child parent side = .ok layout.root :=
  child_eq_ok_iff.mpr ⟨node, h.node?_parent, h.child?⟩

/-- Where there is no occurrence, all stays as it is. -/
theorem Target.filled_self (keeps : Bool) (h : Target arena argument parent side node layout)
    (hfill : ∀ rest, layout.fill depth rest = (layout, rest))
    (hnone : layout.occurrences depth = []) (hzero : layout.term.occurrences depth = 0)
    (hterm : layout.term.replace depth argument.term = layout.term) :
    Filled keeps arena argument parent side node layout depth count [] layout arena where
  fill := hfill
  length := hzero.symm
  first _ := .inl rfl
  term := hterm.symm
  exchange := by
    rw [hnone, leftOver_nil]
    exact .refl _ _
  releases := by
    rw [hnone, leftOver_nil]
    exact .refl
  node?_parent := ⟨node, withChild?_of_child? h.child?, h.node?_parent⟩
  isTree := h.isTree
  holds_argument := h.isTree_argument.holds
  not_mem := h.not_mem
  apart _ hmem hspare := h.apart (spare_subset hspare) (List.mem_cons_of_mem _ hmem)

/-- Another tree is linked in place of an occurrence, which is left over. -/
theorem Target.exists_linked (count : Nat)
    (h : Target arena argument parent side node (.var ref depth)) {arena₁ : Arena α}
    (hgrow : Exchange arena (spare argument count) given.refs arena₁)
    (hfills : arena.Fills arena₁) (hgiven : arena₁.IsTree given)
    (hterm : given.term = argument.term) (hfirst : count = 0 → given = argument)
    (hargument : arena₁.Holds argument) :
    ∃ arena', arena₁.setChild parent side given.root = .ok arena' ∧
      (arena'.node? ref).isSome ∧ ref ∉ given.refs ∧
      Filled true arena argument parent side node (.var ref depth) depth count [given] given
        arena' := by
  have hsome : (arena.node? parent).isSome := by simp [h.node?_parent]
  have hsome' : (arena.node? ref).isSome := h.isTree.holds.isSome_of_mem List.mem_cons_self
  have hne : ref ≠ parent := fun heq => h.not_mem (by simp [Layout.refs, heq])
  have hargs : parent ∉ argument.refs := fun hmem => h.apart hmem List.mem_cons_self
  have hspare : parent ∉ spare argument count := fun hmem => hargs (spare_subset hmem)
  have hspare' : ref ∉ spare argument count := fun hmem =>
    h.apart (spare_subset hmem) (by simp [Layout.refs])
  have hnode : arena₁.node? parent = some node := by
    rw [hgrow.node?_eq hsome hspare, h.node?_parent]
  have hout : parent ∉ given.refs := hgrow.not_mem_new hsome hspare
  obtain ⟨changed, hchanged⟩ : ∃ changed, node.withChild? side given.root = some changed := by
    rw [← Option.isSome_iff_exists, Node.withChild?_isSome, h.child?]
    rfl
  obtain ⟨arena', hset, hlink, hparent⟩ := exists_setChild hnode hchanged
  have hfills' := (careful_setChild arena₁ parent side given.root).of_eq_ok hset
  have hexchange : Exchange arena (parent :: ref :: spare argument count)
      (parent :: (given.refs ++ [ref])) arena' := by
    have hput := hlink.frame (given.refs ++ [ref])
    exact ((hgrow.frame [parent, ref]).trans
      (hput.of_mem_iff (by grind) fun _ => Iff.rfl)).of_mem_iff (by grind) fun _ => Iff.rfl
  refine ⟨arena', hset, ?_, hgrow.not_mem_new hsome' hspare', ?_⟩
  · have hsome₁ : (arena₁.node? ref).isSome := by rwa [hgrow.node?_eq hsome' hspare']
    rwa [hlink.node?_eq hsome₁ (by simpa using hne)]
  · exact {
      fill := fun rest => by simp [Layout.fill]
      length := by simp [Layout.term, Term.occurrences]
      first := fun hzero => .inr (by rw [hfirst hzero]; rfl)
      term := by simp [Layout.term, Term.replace, hterm]
      exchange := by simpa [spare, leftOver, Layout.refs, Layout.occurrences] using hexchange
      releases := .fill .refl (hfills.trans hfills')
      node?_parent := ⟨changed, hchanged, hparent⟩
      isTree := hlink.isTree hgiven (List.disjoint_singleton.mpr hout)
      holds_argument := hlink.holds hargument (List.disjoint_singleton.mpr hargs)
      not_mem := hout
      apart := by simp [spare] }

/-- The first occurrence receives the argument, and every later one a copy of it. -/
theorem Target.exists_supplied (h : Target arena argument parent side node (.var ref depth))
    (count : Nat) :
    ∃ given arena₁ arena', Finishes (fun fuel => supply fuel argument.root ⟨arena, count⟩)
        (given.root, arena₁) ∧
      arena₁.setChild parent side given.root = .ok arena' ∧
      (arena'.node? ref).isSome ∧ ref ∉ given.refs ∧
      Filled true arena argument parent side node (.var ref depth) depth count [given] given
        arena' := by
  rcases Nat.eq_zero_or_pos count with rfl | hpos
  · obtain ⟨arena', hlinked⟩ := h.exists_linked 0 (.refl arena argument.refs) .refl
      h.isTree_argument rfl (fun _ => rfl) h.isTree_argument.holds
    exact ⟨argument, arena, arena', .of_eq fun _ => rfl, hlinked⟩
  · have hcount : count ≠ 0 := Nat.ne_of_gt hpos
    have hnone : spare argument count = [] := if_neg hcount
    -- The argument is in use by now, so a copy of it is linked.
    obtain ⟨copied, arena₁, hterm, hclone, hcopied, hgrow⟩ :=
      h.wellFormed.finishes_clone h.isTree_argument.holds
    obtain ⟨fuel, hok⟩ := hclone.exists_ok
    have hfills := ((careful_clone fuel arena argument.root).of_eq_ok hok).1
    have hargument : arena₁.Holds argument :=
      hgrow.holds h.isTree_argument.holds (List.disjoint_nil_right _)
    obtain ⟨arena', hlinked⟩ := h.exists_linked count (hnone.symm ▸ hgrow) hfills hcopied
      hterm (fun hzero => absurd hzero hcount) hargument
    refine ⟨copied, arena₁, arena', ?_, hlinked⟩
    simpa only [supply, if_neg hcount] using hclone

/-- An occurrence that was left over is released. -/
theorem Target.exists_released (h : Target arena argument parent side node (.var ref depth))
    {arena₁ : Arena α} (hsome : (arena₁.node? ref).isSome) (hnot : ref ∉ given.refs)
    (hfilled : Filled true arena argument parent side node (.var ref depth) depth count [given]
      given arena₁) :
    ∃ arena', arena₁.release ref = .ok arena' ∧
      Filled false arena argument parent side node (.var ref depth) depth count [given] given
        arena' := by
  have hargs : ref ∉ argument.refs := fun hmem => h.apart hmem (by simp [Layout.refs])
  have hne : parent ≠ ref := fun heq => h.not_mem (by simp [Layout.refs, heq])
  have hoccurrence : (Layout.var ref depth : Layout α).occurrences depth = [ref] := if_pos rfl
  obtain ⟨arena', hrelease, hgone⟩ := exists_release hsome
  obtain ⟨changed, hchanged, hparent⟩ := hfilled.node?_parent
  have hexchange := hfilled.exchange
  have hreleases := hfilled.releases
  rw [hoccurrence] at hexchange hreleases
  refine ⟨arena', hrelease, ?_⟩
  exact {
    fill := hfilled.fill
    length := hfilled.length
    first := hfilled.first
    term := hfilled.term
    exchange := hexchange.trans ((hgone.frame (parent :: (given.refs ++
      spare argument (count + 1)))).of_mem_iff (by grind [leftOver]) (by simp [leftOver]))
    releases := by
      rw [hoccurrence]
      exact hreleases.release hrelease
    node?_parent := ⟨changed, hchanged, by
      rw [hgone.node?_eq (by simp [hparent]) (by simpa using hne), hparent]⟩
    isTree := hgone.isTree hfilled.isTree (List.disjoint_singleton.mpr hnot)
    holds_argument := hgone.holds hfilled.holds_argument (List.disjoint_singleton.mpr hargs)
    not_mem := hfilled.not_mem
    apart := hfilled.apart }

/-- Both engines replace an occurrence, and only one of them releases it. -/
theorem Target.finishes_visitOf (keeps : Bool)
    (h : Target arena argument parent side node (.var ref depth)) (count : Nat) :
    ∃ given arena', Finishes (fun fuel => visitOf keeps fuel argument.root
        ⟨parent, side, depth⟩ ⟨arena, count⟩) ([], ⟨arena', count + 1⟩) ∧
      Filled keeps arena argument parent side node (.var ref depth) depth count [given] given
        arena' := by
  obtain ⟨given, arena₁, arena₂, ⟨bound, hsupply⟩, hset, hsome, hnot, hlinked⟩ :=
    h.exists_supplied count
  have hlink : arena.child parent side = .ok ref := h.child_eq
  have hread : arena.read ref = .ok (.var depth) := h.isTree.holds.read_root
  cases keeps with
  | true =>
      refine ⟨given, arena₂, ⟨bound, fun fuel hfuel => ?_⟩, hlinked⟩
      have hgiven : supply fuel argument.root ⟨arena, count⟩ = .ok (given.root, arena₁) :=
        hsupply fuel hfuel
      simp only [visitOf, cond, graftVisit, hlink, hread, hgiven, hset, bind, Except.bind, pure,
        Except.pure, if_true]
  | false =>
      obtain ⟨arena', hrelease, hfilled⟩ := h.exists_released hsome hnot hlinked
      refine ⟨given, arena', ⟨bound, fun fuel hfuel => ?_⟩, hfilled⟩
      have hgiven : supply fuel argument.root ⟨arena, count⟩ = .ok (given.root, arena₁) :=
        hsupply fuel hfuel
      simp only [visitOf, cond, substituteVisit, hlink, hread, hgiven, hset, hrelease, bind,
        Except.bind, pure, Except.pure, if_true]

end Link

/-! ### The walk -/

variable {keeps : Bool} {arena : Arena α} {argument layout : Layout α} {parent : Ref}
  {side : Side} {node : Node α} {depth count : Nat}

theorem Target.of_lam {ref : Ref} {body : Layout α}
    (h : Target arena argument parent side node (.lam ref body)) :
    Target arena argument ref .body (.lam body.root) body := by
  obtain ⟨hnode, hnot, hbody⟩ := isTree_lam.mp h.isTree
  refine ⟨h.wellFormed, hnode, rfl, hbody, h.isTree_argument, hnot, ?_⟩
  exact List.disjoint_of_subset_right (List.subset_cons_self _ _) h.apart

/-- The slots above a tree are not in the footprint of filling it. -/
theorem Target.outside {below : List Ref} (h : Target arena argument parent side node layout)
    (hsub : below ⊆ layout.refs) : parent ∉ below ++ spare argument count := by
  intro hmem
  rcases List.mem_append.mp hmem with hmem | hmem
  · exact h.not_mem (hsub hmem)
  · exact h.apart (spare_subset hmem) List.mem_cons_self

theorem Filled.lam {ref : Ref} {body filled : Layout α} {supply : List (Layout α)}
    {arena' : Arena α} (h : Target arena argument parent side node (.lam ref body))
    (hbody : Filled keeps arena argument ref .body (.lam body.root) body (depth + 1) count supply
      filled arena') :
    Filled keeps arena argument parent side node (.lam ref body) depth count supply
      (.lam ref filled) arena' := by
  obtain ⟨_, hchanged, hnode⟩ := hbody.node?_parent
  cases hchanged
  have hsome : (arena.node? parent).isSome := by simp [h.node?_parent]
  have hout : parent ∉ ref :: (body.refs ++ spare argument count) := h.outside fun _ hmem => hmem
  exact {
    fill := fun rest => by simp [Layout.fill, hbody.fill]
    length := hbody.length
    first := hbody.first
    term := by rw [Layout.term, Layout.term, Term.replace, hbody.term]
    exchange := hbody.exchange.cons parent
    releases := hbody.releases
    node?_parent := ⟨node, withChild?_of_child? h.child?, by
      rw [hbody.exchange.node?_eq hsome hout, h.node?_parent]⟩
    isTree := isTree_lam.mpr ⟨hnode, hbody.not_mem, hbody.isTree⟩
    holds_argument := hbody.holds_argument
    not_mem := fun hmem => hbody.exchange.not_mem_new hsome hout (List.mem_append_left _ hmem)
    apart := List.disjoint_cons_left.mpr ⟨fun hmem =>
      h.of_lam.apart (spare_subset hmem) List.mem_cons_self, hbody.apart⟩ }

theorem Target.of_app_function {ref : Ref} {function operand : Layout α}
    (h : Target arena argument parent side node (.app ref function operand)) :
    Target arena argument ref .function (.app function.root operand.root) function := by
  obtain ⟨hnode, ⟨hnot, _⟩, _, hfunction, _⟩ := isTree_app.mp h.isTree
  refine ⟨h.wellFormed, hnode, rfl, hfunction, h.isTree_argument, hnot, ?_⟩
  exact List.disjoint_of_subset_right (by grind [Layout.refs]) h.apart

theorem Target.operand_outside {ref : Ref} {function operand : Layout α}
    (h : Target arena argument parent side node (.app ref function operand)) :
    operand.refs.Disjoint (ref :: (function.refs ++ spare argument count)) := by
  obtain ⟨_, ⟨_, hnot⟩, hdisjoint, _, _⟩ := isTree_app.mp h.isTree
  intro other hmem hold
  rcases List.mem_cons.mp hold with rfl | hold
  · exact hnot hmem
  · rcases List.mem_append.mp hold with hold | hold
    · exact hdisjoint hold hmem
    · exact h.apart (spare_subset hold) (by simp [Layout.refs, hmem])

theorem Target.of_app_operand {ref : Ref} {function operand filled : Layout α}
    {supply : List (Layout α)} {arena₁ : Arena α}
    (h : Target arena argument parent side node (.app ref function operand))
    (hfunction : Filled keeps arena argument ref .function (.app function.root operand.root)
      function depth count supply filled arena₁) :
    Target arena₁ argument ref .argument (.app filled.root operand.root) operand := by
  obtain ⟨_, ⟨_, hnot⟩, _, _, hoperand⟩ := isTree_app.mp h.isTree
  obtain ⟨_, hchanged, hnode⟩ := hfunction.node?_parent
  cases hchanged
  refine ⟨hfunction.exchange.wellFormed h.wellFormed, hnode, rfl,
    hfunction.exchange.isTree hoperand h.operand_outside,
    ⟨hfunction.holds_argument, h.isTree_argument.nodup⟩, hnot, ?_⟩
  exact List.disjoint_of_subset_right (by grind [Layout.refs]) h.apart

theorem Filled.app {ref : Ref} {function operand filledf filledo : Layout α}
    {supplyf supplyo : List (Layout α)} {arena₁ arena₂ : Arena α}
    (h : Target arena argument parent side node (.app ref function operand))
    (hfunction : Filled keeps arena argument ref .function (.app function.root operand.root)
      function depth count supplyf filledf arena₁)
    (hoperand : Filled keeps arena₁ argument ref .argument (.app filledf.root operand.root)
      operand depth (count + supplyf.length) supplyo filledo arena₂) :
    Filled keeps arena argument parent side node (.app ref function operand) depth count
      (supplyf ++ supplyo) (.app ref filledf filledo) arena₂ := by
  obtain ⟨_, hchanged, hnode⟩ := hoperand.node?_parent
  cases hchanged
  have hcount : count + (supplyf ++ supplyo).length = count + supplyf.length + supplyo.length := by
    rw [List.length_append, Nat.add_assoc]
  -- The operand waits while the function part is filled, and what the function part has become
  -- is left alone while the operand is filled.
  have hexchange : Exchange arena (ref :: (function.refs ++ operand.refs) ++ spare argument count)
      (ref :: (filledf.refs ++ filledo.refs) ++
        (leftOver keeps (function.occurrences depth ++ operand.occurrences depth) ++
          spare argument (count + (supplyf ++ supplyo).length))) arena₂ := by
    rw [hcount, leftOver_append]
    have hleft := hfunction.exchange.frame operand.refs
    have hright := hoperand.exchange.frame
      (filledf.refs ++ leftOver keeps (function.occurrences depth))
    exact (hleft.trans (hright.of_mem_iff (by grind) fun _ => Iff.rfl)).of_mem_iff (by grind)
      (by grind)
  have hfilledf : filledf.refs.Disjoint
      (ref :: (operand.refs ++ spare argument (count + supplyf.length))) := by
    have hoperand := (isTree_app.mp h.isTree).2.2.2.2
    have hapart := hfunction.exchange.disjoint hoperand.holds h.operand_outside
    intro other hmem hold
    rcases List.mem_cons.mp hold with rfl | hold
    · exact hfunction.not_mem hmem
    · rcases List.mem_append.mp hold with hold | hold
      · exact hapart hold (by simp [hmem])
      · exact hfunction.apart hmem hold
  have hsome : (arena.node? parent).isSome := by simp [h.node?_parent]
  have hout : parent ∉ ref :: (function.refs ++ operand.refs) ++ spare argument count :=
    h.outside fun _ hmem => hmem
  exact {
    fill := fun rest => by simp [Layout.fill, hfunction.fill, hoperand.fill]
    length := by simp [Layout.term, Term.occurrences, hfunction.length, hoperand.length]
    first := by
      intro hzero
      cases supplyf with
      | nil => exact hoperand.first (by simpa using hzero)
      | cons given rest => simpa using hfunction.first hzero
    term := by
      rw [Layout.term, Layout.term, Term.replace, hfunction.term, hoperand.term]
    exchange := hexchange.cons parent
    releases := by
      rw [Layout.occurrences, leftOver_append]
      exact hfunction.releases.trans hoperand.releases
    node?_parent := ⟨node, withChild?_of_child? h.child?, by
      rw [hexchange.node?_eq hsome hout, h.node?_parent]⟩
    isTree := isTree_app.mpr ⟨hnode, ⟨hfunction.not_mem, hoperand.not_mem⟩,
      List.disjoint_of_subset_right (by grind)
        (hoperand.exchange.disjoint hfunction.isTree.holds hfilledf),
      hoperand.exchange.isTree hfunction.isTree hfilledf, hoperand.isTree⟩
    holds_argument := hoperand.holds_argument
    not_mem := fun hmem => hexchange.not_mem_new hsome hout (List.mem_append_left _ hmem)
    apart := by
      rw [hcount]
      intro other hmem hspare
      rcases List.mem_cons.mp hmem with rfl | hmem
      · exact h.apart (spare_subset hspare) (by simp [Layout.refs])
      · rcases List.mem_append.mp hmem with hmem | hmem
        · exact hfunction.apart hmem (spare_of_add hspare)
        · exact hoperand.apart hmem hspare }

/-- From a link on, every occurrence receives the argument or a copy of it, and is left over or
released. -/
theorem Target.walks (keeps : Bool) (depth count : Nat)
    (h : Target arena argument parent side node layout) :
    ∃ supply filled arena', Filled keeps arena argument parent side node layout depth count supply
        filled arena' ∧
      Walks (fun fuel => visitOf keeps fuel argument.root) [⟨parent, side, depth⟩]
        ⟨arena, count⟩ ⟨arena', count + supply.length⟩ := by
  have hread := h.isTree.holds.read_root
  -- The walk over an operand starts in the arena that the function part has left, so the
  -- induction is for any arena and any count.
  induction layout generalizing arena parent side node depth count with
  | lam ref body ih =>
      have hvisit : Finishes (fun fuel => visitOf keeps fuel argument.root ⟨parent, side, depth⟩
          ⟨arena, count⟩) ([⟨ref, .body, depth + 1⟩], ⟨arena, count⟩) := .of_eq fun fuel => by
        cases keeps <;>
          simp only [visitOf, cond, graftVisit, substituteVisit, h.child_eq, hread, Layout.node,
            bind, Except.bind, pure, Except.pure] <;> rfl
      obtain ⟨supply, filled, arena', hfilled, hwalk⟩ :=
        ih _ _ h.of_lam h.of_lam.isTree.holds.read_root
      exact ⟨supply, _, arena', .lam h hfilled, .of_visit hvisit hwalk⟩
  | app ref function operand ihf iho =>
      have hvisit : Finishes (fun fuel => visitOf keeps fuel argument.root ⟨parent, side, depth⟩
          ⟨arena, count⟩) ([⟨ref, .function, depth⟩, ⟨ref, .argument, depth⟩], ⟨arena, count⟩) :=
        .of_eq fun fuel => by
          cases keeps <;>
            simp only [visitOf, cond, graftVisit, substituteVisit, h.child_eq, hread, Layout.node,
              bind, Except.bind, pure, Except.pure] <;> rfl
      obtain ⟨supplyf, filledf, arena₁, hfunction, hwalkf⟩ :=
        ihf _ _ h.of_app_function h.of_app_function.isTree.holds.read_root
      have htarget := h.of_app_operand hfunction
      obtain ⟨supplyo, filledo, arena₂, hoperand, hwalko⟩ := iho _ _ htarget
        htarget.isTree.holds.read_root
      refine ⟨supplyf ++ supplyo, _, arena₂, .app h hfunction hoperand, ?_⟩
      rw [List.length_append, ← Nat.add_assoc]
      exact .of_visit hvisit (.pair hwalkf hwalko)
  | var ref index =>
      by_cases heq : index = depth
      · subst heq
        obtain ⟨given, arena', hvisit, hfilled⟩ := h.finishes_visitOf keeps count
        exact ⟨[given], given, arena', hfilled, .leaf hvisit⟩
      · refine ⟨[], _, arena, h.filled_self keeps ?_ ?_ ?_ ?_, .leaf (.of_eq fun fuel => ?_)⟩
        · simp [Layout.fill, heq]
        · simp [Layout.occurrences, heq]
        · simp [Layout.term, Term.occurrences, heq]
        · simp [Layout.term, Term.replace, heq]
        · cases keeps <;>
            simp only [visitOf, cond, graftVisit, substituteVisit, h.child_eq, hread, Layout.node,
              bind, Except.bind, pure, Except.pure, if_neg heq] <;> rfl
  | leaf ref value =>
      refine ⟨[], _, arena, h.filled_self keeps (fun _ => rfl) rfl rfl rfl,
        .leaf (.of_eq fun fuel => ?_)⟩
      cases keeps <;>
        simp only [visitOf, cond, graftVisit, substituteVisit, h.child_eq, hread, Layout.node,
          bind, Except.bind, pure, Except.pure] <;> rfl

/-! ### Contraction -/

variable {ref : Ref} {body : Layout α}

theorem IsTree.target_body (hwf : arena.WellFormed) (hfunction : arena.IsTree (.lam ref body))
    (hargument : arena.IsTree argument) (happart : argument.refs.Disjoint (ref :: body.refs)) :
    Target arena argument ref .body (.lam body.root) body := by
  obtain ⟨hnode, hnot, hbody⟩ := isTree_lam.mp hfunction
  exact ⟨hwf, hnode, rfl, hbody, hargument, hnot, happart⟩

/-- Substituting fills the body of the abstraction. -/
theorem IsTree.finishes_substitute (hwf : arena.WellFormed)
    (hfunction : arena.IsTree (.lam ref body)) (hargument : arena.IsTree argument)
    (happart : argument.refs.Disjoint (ref :: body.refs)) :
    ∃ supply filled arena',
      Filled false arena argument ref .body (.lam body.root) body 0 0 supply filled arena' ∧
      arena.Releases (body.occurrences 0) arena' ∧
      Finishes (fun fuel => arena.substitute fuel ref argument.root) ⟨arena', supply.length⟩ := by
  obtain ⟨supply, filled, arena', hfilled, hwalk⟩ :=
    (hfunction.target_body hwf hargument happart).walks false 0 0
  rw [Nat.zero_add] at hwalk
  exact ⟨supply, filled, arena', hfilled, hfilled.releases, hwalk.finishes⟩

/-- An argument that no occurrence received is released; then no slot is spare. -/
theorem IsTree.finishes_releaseUnused (hargument : arena.IsTree argument) (count : Nat) :
    ∃ arena', Finishes (fun fuel => releaseUnused fuel argument.root ⟨arena, count⟩) arena' ∧
      Exchange arena (spare argument count) [] arena' := by
  unfold releaseUnused spare
  by_cases hzero : count = 0
  · simp only [if_pos hzero]
    exact hargument.finishes_releaseTree
  · simp only [if_neg hzero]
    exact ⟨arena, .of_eq fun _ => rfl, .refl _ _⟩

/-- Contracting fills the body, and releases the abstraction and an argument that no occurrence
received. -/
theorem IsTree.finishes_contract (hwf : arena.WellFormed)
    (hfunction : arena.IsTree (.lam ref body)) (hargument : arena.IsTree argument)
    (happart : argument.refs.Disjoint (ref :: body.refs)) :
    ∃ supply filled arena₁ arena',
      Filled false arena argument ref .body (.lam body.root) body 0 0 supply filled arena₁ ∧
      Finishes (fun fuel => arena.beta fuel ref argument.root) (filled.root, arena') ∧
      arena'.IsTree filled ∧
      Exchange arena (ref :: (body.refs ++ argument.refs)) filled.refs arena' := by
  obtain ⟨supply, filled, arena₁, hfilled, _, hsubstitute⟩ :=
    hfunction.finishes_substitute hwf hargument happart
  have hexchange := hfilled.exchange
  have hspare := hfilled.apart
  rw [Nat.zero_add] at hexchange hspare
  obtain ⟨arena₂, hunused, hgone⟩ := IsTree.finishes_releaseUnused
    ⟨hfilled.holds_argument, hargument.nodup⟩ supply.length
  obtain ⟨_, hchanged, hnode⟩ := hfilled.node?_parent
  cases hchanged
  have href : ref ∉ spare argument supply.length :=
    fun hmem => happart (spare_subset hmem) List.mem_cons_self
  have hnode₂ : arena₂.node? ref = some (.lam filled.root) := by
    rw [hgone.node?_eq (by simp [hnode]) href, hnode]
  have hbody : arena₂.child ref .body = .ok filled.root :=
    child_eq_ok_iff.mpr ⟨_, hnode₂, rfl⟩
  have hsome₂ : (arena₂.node? ref).isSome := by simp [hnode₂]
  obtain ⟨arena₃, hrelease, hshell⟩ := exists_release hsome₂
  refine ⟨supply, filled, arena₁, arena₃, hfilled, ?_, ?_, ?_⟩
  · exact hsubstitute.bind (hunused.bind (.bind_ok hbody (.bind_ok hrelease (.pure _))))
  · refine hshell.isTree (hgone.isTree hfilled.isTree hspare) ?_
    exact List.disjoint_singleton.mpr hfilled.not_mem
  · have hrest : Exchange arena₁ (ref :: (filled.refs ++ spare argument supply.length))
        filled.refs arena₃ := by
      have hgone := (hgone.frame (ref :: filled.refs)).trans (hshell.frame filled.refs)
      exact hgone.of_mem_iff (by grind) (by simp)
    exact hexchange.trans hrest

/-- Contracting leaves a tree of the body with the argument put in place. -/
theorem IsTree.finishes_beta (hwf : arena.WellFormed) (hfunction : arena.IsTree (.lam ref body))
    (hargument : arena.IsTree argument) (happart : argument.refs.Disjoint (ref :: body.refs)) :
    ∃ result arena', result.term = body.term.replace 0 argument.term ∧
      Finishes (fun fuel => arena.beta fuel ref argument.root) (result.root, arena') ∧
      arena'.IsTree result ∧
      Exchange arena (ref :: (body.refs ++ argument.refs)) result.refs arena' := by
  obtain ⟨_, filled, _, arena', hfilled, hbeta, htree, hexchange⟩ :=
    hfunction.finishes_contract hwf hargument happart
  exact ⟨filled, arena', hfilled.term, hbeta, htree, hexchange⟩

/-- Grafting fills the body. The abstraction, the occurrences, and an argument that none of them
received are left over. -/
theorem IsTree.finishes_graft (hwf : arena.WellFormed) (hfunction : arena.IsTree (.lam ref body))
    (hargument : arena.IsTree argument) (happart : argument.refs.Disjoint (ref :: body.refs)) :
    ∃ supply filled arena',
      Filled true arena argument ref .body (.lam body.root) body 0 0 supply filled arena' ∧
      Finishes (fun fuel => arena.graft fuel ref argument.root) (filled.root, arena') ∧
      Exchange arena (ref :: (body.refs ++ argument.refs)) (filled.refs ++ (ref ::
        (body.occurrences 0 ++ spare argument supply.length))) arena' := by
  obtain ⟨supply, filled, arena', hfilled, hwalk⟩ :=
    (hfunction.target_body hwf hargument happart).walks true 0 0
  obtain ⟨_, hchanged, hnode⟩ := hfilled.node?_parent
  cases hchanged
  have hbody : arena'.child ref .body = .ok filled.root := child_eq_ok_iff.mpr ⟨_, hnode, rfl⟩
  have hexchange := hfilled.exchange
  rw [Nat.zero_add] at hexchange
  refine ⟨supply, filled, arena', hfilled, ?_, ?_⟩
  · exact hwalk.finishes.bind (.bind_ok hbody (.pure _))
  · exact hexchange.of_mem_iff (fun _ => Iff.rfl) (by grind [leftOver])

end Arena

end LambdaMachine
