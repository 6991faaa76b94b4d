import LambdaMachine.Arena.Lemmas
import LambdaMachine.Numeral.Counting

/-!
# Operations are made of edits

Whatever an arena holds, also where nodes are shared or form a cycle, an operation changes it
by storing, exchanging and releasing nodes one by one, so it keeps what each of these keeps
(`WellFormed.of_edits`). A node is read before it is released, so a walk that comes to a slot
a second time ends at reading it, and releases no slot twice. Both are said of each operation
by one statement of the form `Careful`, and these are put together along the operations.
-/

namespace LambdaMachine

variable {τ σ ρ : Type}

/-- The work does not end at releasing an empty slot, and a value that it gives is as said. -/
def Careful (result : Except Fault σ) (given : σ → Prop) : Prop :=
  match result with
  | .ok value => given value
  | .error fault => ∀ ref, fault ≠ .alreadyFree ref

namespace Careful

variable {given given' : σ → Prop} {result : Except Fault σ}

theorem ok {value : σ} (h : given value) : Careful (.ok value) given := h

theorem mono (h : Careful result given) (himp : ∀ value, given value → given' value) :
    Careful result given' := by
  cases result with
  | ok value => exact himp value h
  | error fault => exact h

theorem bind {next : σ → Except Fault ρ} {wanted : ρ → Prop} (h : Careful result given)
    (hnext : ∀ value, given value → Careful (next value) wanted) :
    Careful (result >>= next) wanted := by
  cases result with
  | ok value => exact hnext value h
  | error fault => exact h

theorem of_eq_ok (h : Careful result given) {value : σ} (hok : result = .ok value) :
    given value := by
  rw [hok] at h
  exact h

theorem ne_alreadyFree (h : Careful result given) (ref : Ref) :
    result ≠ .error (.alreadyFree ref) := by
  rintro rfl
  exact h ref rfl

/-- What every visit keeps, a walk keeps. -/
theorem traverse (given : σ → Prop) {visit : τ → σ → Except Fault (List τ × σ)}
    (hvisit : ∀ task state, given state → Careful (visit task state) fun next => given next.2)
    (fuel : Nat) (tasks : List τ) {state : σ} (h : given state) :
    Careful (traverse visit fuel tasks state) given := by
  induction fuel generalizing tasks state with
  | zero =>
      cases tasks with
      | nil => exact h
      | cons task pending => exact fun _ hfault => nomatch hfault
  | succ fuel ih =>
      cases tasks with
      | nil => exact h
      | cons task pending =>
          have hstep := hvisit task state h
          rw [LambdaMachine.traverse]
          cases hresult : visit task state with
          | error fault =>
              rw [hresult] at hstep
              exact hstep
          | ok next =>
              rw [hresult] at hstep
              exact ih _ hstep

end Careful

namespace Arena

variable {α β : Type} {arena arena' arena'' : Arena α} {ref : Ref} {node : Node α}

/-! ### Edits -/

/-- One arena is made from another by operations on single slots. -/
inductive Edits (arena : Arena α) : Arena α → Prop where
  | refl : Edits arena arena
  | alloc {edited} (h : Edits arena edited) (node : Node α) : Edits arena (edited.alloc node).2
  | write {edited next ref node} (h : Edits arena edited)
      (hwrite : edited.write ref node = .ok next) : Edits arena next
  | release {edited next ref} (h : Edits arena edited)
      (hrelease : edited.release ref = .ok next) : Edits arena next

/-- Edits that release nothing. -/
inductive Fills (arena : Arena α) : Arena α → Prop where
  | refl : Fills arena arena
  | alloc {edited} (h : Fills arena edited) (node : Node α) : Fills arena (edited.alloc node).2
  | write {edited next ref node} (h : Fills arena edited)
      (hwrite : edited.write ref node = .ok next) : Fills arena next

/-- Edits of which those that release nodes empty these slots, in this order. -/
inductive Releases (arena : Arena α) : List Ref → Arena α → Prop where
  | refl : Releases arena [] arena
  | fill {released edited next} (h : Releases arena released edited) (hfills : edited.Fills next) :
      Releases arena released next
  | release {released edited next ref} (h : Releases arena released edited)
      (hrelease : edited.release ref = .ok next) : Releases arena (released ++ [ref]) next

theorem Edits.trans (hfirst : arena.Edits arena') (hsecond : arena'.Edits arena'') :
    arena.Edits arena'' := by
  induction hsecond with
  | refl => exact hfirst
  | alloc _ node ih => exact ih.alloc node
  | write _ hwrite ih => exact ih.write hwrite
  | release _ hrelease ih => exact ih.release hrelease

theorem Fills.trans (hfirst : arena.Fills arena') (hsecond : arena'.Fills arena'') :
    arena.Fills arena'' := by
  induction hsecond with
  | refl => exact hfirst
  | alloc _ node ih => exact ih.alloc node
  | write _ hwrite ih => exact ih.write hwrite

theorem Fills.edits (hfills : arena.Fills arena') : arena.Edits arena' := by
  induction hfills with
  | refl => exact .refl
  | alloc _ node ih => exact ih.alloc node
  | write _ hwrite ih => exact ih.write hwrite

theorem Releases.trans {released released' : List Ref} (hfirst : arena.Releases released arena')
    (hsecond : arena'.Releases released' arena'') :
    arena.Releases (released ++ released') arena'' := by
  induction hsecond with
  | refl => rwa [List.append_nil]
  | fill _ hfills ih => exact ih.fill hfills
  | release _ hrelease ih =>
      rw [← List.append_assoc]
      exact ih.release hrelease

theorem WellFormed.of_edits (hwf : arena.WellFormed) (hedits : arena.Edits arena') :
    arena'.WellFormed := by
  induction hedits with
  | refl => exact hwf
  | alloc _ node ih => exact ih.alloc node
  | write _ hwrite ih => exact ih.of_write hwrite
  | release _ hrelease ih => exact ih.of_release hrelease

/-- A slot that holds a node holds one after storing another, be the free list right or not. -/
theorem isSome_of_alloc (node : Node α) (hsome : (arena.node? ref).isSome) :
    ((arena.alloc node).2.node? ref).isSome := by
  obtain ⟨old, hold⟩ := Option.isSome_iff_exists.mp hsome
  have hlt := lt_size_of_node? hold
  unfold alloc
  split
  next slots slot free =>
      simp only [node?, Array.getElem?_setIfInBounds] at hold ⊢
      split
      · split <;> simp_all
      · simp [hold]
  next slots =>
      simp only [node?, Array.getElem?_push] at hold ⊢
      split
      · rfl
      · simp [hold]

theorem Fills.isSome (hfills : arena.Fills arena') (hsome : (arena.node? ref).isSome) :
    (arena'.node? ref).isSome := by
  induction hfills with
  | refl => exact hsome
  | alloc _ node ih => exact isSome_of_alloc node ih
  | write _ hwrite ih =>
      rw [node?_of_write hwrite]
      split
      · rfl
      · exact ih

/-! ### Operations on single nodes -/

theorem careful_read (arena : Arena α) (ref : Ref) :
    Careful (arena.read ref) fun node => arena.node? ref = some node := by
  unfold read
  cases arena.node? ref with
  | some node => exact rfl
  | none => exact fun _ hfault => nomatch hfault

theorem careful_write (arena : Arena α) (ref : Ref) (node : Node α) :
    Careful (arena.write ref node) arena.Fills := by
  cases hwrite : arena.write ref node with
  | ok arena' => exact .write .refl hwrite
  | error fault =>
      unfold write at hwrite
      cases hnode : arena.node? ref <;> simp only [hnode] at hwrite <;> cases hwrite
      exact fun _ hfault => nomatch hfault

/-- A slot that holds a node can be released. -/
theorem careful_release (hsome : (arena.node? ref).isSome) :
    Careful (arena.release ref) arena.Edits := by
  have hrelease := release_eq_ok_iff.mpr ⟨hsome, rfl⟩
  rw [hrelease]
  exact Edits.release .refl hrelease

theorem careful_child (arena : Arena α) (parent : Ref) (side : Side) :
    Careful (arena.child parent side) fun _ => (arena.node? parent).isSome := by
  refine (arena.careful_read parent).bind fun node hnode => ?_
  cases node.child? side with
  | some ref => exact .ok (by simp [hnode])
  | none => exact fun _ hfault => nomatch hfault

theorem careful_setChild (arena : Arena α) (parent : Ref) (side : Side) (child : Ref) :
    Careful (arena.setChild parent side child) arena.Fills := by
  refine (arena.careful_read parent).bind fun node _ => ?_
  cases node.withChild? side child with
  | some changed => exact arena.careful_write parent changed
  | none => exact fun _ hfault => nomatch hfault

theorem careful_isApp (arena : Arena α) (ref : Ref) :
    Careful (arena.isApp ref) fun _ => True :=
  (arena.careful_read ref).bind fun _ _ => trivial

theorem careful_plug (arena : Arena α) (path : Path) (ref : Ref) :
    Careful (arena.plug path ref) arena.Fills := by
  cases path with
  | nil => exact Fills.refl
  | cons link path => exact arena.careful_setChild _ _ _

theorem careful_focus (arena : Arena α) (ref : Ref) :
    Careful (arena.focus ref) fun _ => True := by
  refine (arena.careful_read ref).bind fun node _ => ?_
  split
  · refine (arena.careful_isApp _).bind fun happ _ => ?_
    split
    · trivial
    · refine (arena.careful_isApp _).bind fun happ _ => ?_
      split <;> trivial
  · exact fun _ hfault => nomatch hfault

theorem careful_copyNode (arena : Arena α) (ref : Ref) :
    Careful (arena.copyNode ref) fun copy =>
      ∃ node, copy = arena.alloc node :=
  (arena.careful_read ref).bind fun node _ => .ok ⟨node, rfl⟩

/-! ### Operations on whole subtrees -/

theorem careful_releaseVisit (ref : Ref) (arena : Arena α) :
    Careful (releaseVisit ref arena) fun next => arena.Edits next.2 := by
  refine (arena.careful_read ref).bind fun node hnode => ?_
  exact (careful_release (by simp [hnode])).bind fun _ hedits => .ok hedits

theorem careful_releaseTree (fuel : Nat) (arena : Arena α) (root : Ref) :
    Careful (arena.releaseTree fuel root) arena.Edits := by
  refine Careful.traverse arena.Edits (fun task state hedits => ?_) fuel [root] .refl
  exact (careful_releaseVisit task state).mono fun _ => hedits.trans

theorem careful_cloneVisit (copy : Ref) (arena : Arena α) :
    Careful (cloneVisit copy arena) fun next => arena.Fills next.2 := by
  refine (arena.careful_read copy).bind fun node _ => ?_
  cases node with
  | lam body =>
      refine (arena.careful_copyNode body).bind fun below hbelow => ?_
      obtain ⟨child, rfl⟩ := hbelow
      exact (careful_write _ copy _).bind fun _ hfills =>
        .ok ((Fills.refl.alloc child).trans hfills)
  | app function argument =>
      refine (arena.careful_copyNode function).bind fun left hleft => ?_
      obtain ⟨child, rfl⟩ := hleft
      refine (careful_copyNode _ argument).bind fun right hright => ?_
      obtain ⟨child', rfl⟩ := hright
      exact (careful_write _ copy _).bind fun _ hfills =>
        .ok (((Fills.refl.alloc child).alloc child').trans hfills)
  | var index => exact Fills.refl
  | leaf value => exact Fills.refl

/-- The root of a copy is the first node that is stored. -/
theorem careful_clone (fuel : Nat) (arena : Arena α) (root : Ref) :
    Careful (arena.clone fuel root) fun copied =>
      arena.Fills copied.2 ∧ ∃ node, copied.1 = (arena.alloc node).1 := by
  refine (arena.careful_copyNode root).bind fun copy hcopy => ?_
  obtain ⟨node, rfl⟩ := hcopy
  refine (Careful.traverse arena.Fills (fun task state hfills => ?_) fuel _
    (Fills.refl.alloc node)).bind fun _ hfills => .ok ⟨hfills, node, rfl⟩
  exact (careful_cloneVisit task state).mono fun _ => hfills.trans

theorem careful_transplantVisit (source : Arena α) (relabel : α → β) (planting : Planting)
    (arena : Arena β) : Careful (transplantVisit source relabel planting arena) fun _ => True := by
  refine (source.careful_read planting.source).bind fun node _ => ?_
  cases node <;> exact (careful_write _ _ _).bind fun _ _ => .ok trivial

theorem careful_transplant (fuel : Nat) (source : Arena α) (root : Ref) (relabel : α → β)
    (arena : Arena β) : Careful (source.transplant fuel root relabel arena) fun _ => True :=
  (Careful.traverse (fun _ => True)
    (fun task state _ => source.careful_transplantVisit relabel task state) fuel _
    trivial).bind fun _ _ => .ok trivial

/-! ### Contraction -/

theorem careful_supply (fuel : Nat) (argument : Ref) (state : Substituted α) :
    Careful (supply fuel argument state) fun supplied => state.arena.Fills supplied.2 := by
  unfold supply
  split
  · exact Fills.refl
  · exact (careful_clone _ _ _).mono fun _ => And.left

/-- An occurrence is still there when it is released: until then nodes are only stored and
linked. -/
theorem careful_substituteVisit (fuel : Nat) (argument : Ref) (site : Site)
    (state : Substituted α) :
    Careful (substituteVisit fuel argument site state) fun next =>
      state.arena.Edits next.2.arena := by
  refine (careful_child _ _ _).bind fun child _ => ?_
  refine (state.arena.careful_read child).bind fun node hnode => ?_
  cases node with
  | lam body => exact Edits.refl
  | app function argument => exact Edits.refl
  | leaf value => exact Edits.refl
  | var index =>
      dsimp only
      split
      · refine (careful_supply fuel argument state).bind fun supplied hsupplied => ?_
        refine (careful_setChild _ _ _ _).bind fun linked hlinked => ?_
        have hfills := hsupplied.trans hlinked
        refine (careful_release (hfills.isSome (by simp [hnode]))).bind fun _ hedits => ?_
        exact .ok (hfills.edits.trans hedits)
      · exact Edits.refl

theorem careful_substitute (fuel : Nat) (arena : Arena α) (function argument : Ref) :
    Careful (arena.substitute fuel function argument) fun state => arena.Edits state.arena := by
  refine Careful.traverse (fun state : Substituted α => arena.Edits state.arena)
    (fun task state hedits => ?_) fuel _ .refl
  exact (careful_substituteVisit fuel argument task state).mono fun _ => hedits.trans

theorem careful_beta (fuel : Nat) (arena : Arena α) (function argument : Ref) :
    Careful (arena.beta fuel function argument) fun result => arena.Edits result.2 := by
  refine (careful_substitute fuel arena function argument).bind fun state hedits => ?_
  have hunused : Careful (releaseUnused fuel argument state) state.arena.Edits := by
    unfold releaseUnused
    split
    · exact careful_releaseTree _ _ _
    · exact Edits.refl
  refine hunused.bind fun arena₁ hedits₁ => ?_
  refine (careful_child _ _ _).bind fun body hsome => ?_
  exact (careful_release hsome).bind fun _ hedits₂ => .ok ((hedits.trans hedits₁).trans hedits₂)

theorem careful_graftVisit (fuel : Nat) (argument : Ref) (site : Site) (state : Substituted α) :
    Careful (graftVisit fuel argument site state) fun next =>
      state.arena.Fills next.2.arena := by
  refine (careful_child _ _ _).bind fun child _ => ?_
  refine (state.arena.careful_read child).bind fun node _ => ?_
  cases node with
  | lam body => exact Fills.refl
  | app function argument => exact Fills.refl
  | leaf value => exact Fills.refl
  | var index =>
      dsimp only
      split
      · refine (careful_supply fuel argument state).bind fun supplied hsupplied => ?_
        exact (careful_setChild _ _ _ _).bind fun _ hlinked => .ok (hsupplied.trans hlinked)
      · exact Fills.refl

/-- Grafting releases nothing. -/
theorem careful_graft (fuel : Nat) (arena : Arena α) (function argument : Ref) :
    Careful (arena.graft fuel function argument) fun result => arena.Fills result.2 := by
  have hwalk : Careful (traverse (graftVisit fuel argument) fuel [⟨function, .body, 0⟩]
      ⟨arena, 0⟩) fun state => arena.Fills state.arena := by
    refine Careful.traverse (fun state : Substituted α => arena.Fills state.arena)
      (fun task state hfills => ?_) fuel _ .refl
    exact (careful_graftVisit fuel argument task state).mono fun _ => hfills.trans
  exact hwalk.bind fun _ hfills => (careful_child _ _ _).bind fun _ _ => .ok hfills

end Arena

/-! ### Counting -/

namespace Counting

theorem careful_settle (arena : Arena Tally) (path : Path) (result : Ref) :
    Careful (settle arena path result) fun _ => True := by
  cases path with
  | nil =>
      refine (arena.careful_read result).bind fun node _ => ?_
      split <;> trivial
  | cons link path => exact (arena.careful_setChild _ _ _).bind fun _ _ => trivial

theorem careful_increase (arena : Arena Tally) (path : Path) (argument : Ref) :
    Careful (increase arena path argument) fun _ => True := by
  refine (arena.careful_read argument).bind fun node _ => ?_
  split
  · split
    · exact careful_settle _ _ _
    · trivial
  · trivial

theorem careful_contract (fuel : Nat) (arena : Arena Tally) (path : Path)
    (function argument : Ref) :
    Careful (contract fuel arena path function argument) fun _ => True := by
  refine (arena.careful_read function).bind fun head _ => ?_
  split
  · refine (arena.careful_graft fuel function argument).bind fun result _ => ?_
    refine (result.2.careful_isApp result.1).bind fun happ _ => ?_
    split
    · exact (Arena.careful_plug _ _ _).bind fun _ _ => trivial
    · exact careful_settle _ _ _
  · exact careful_increase _ _ _
  · trivial

theorem careful_turn (fuel : Nat) (state : Counting) :
    Careful (turn fuel state) fun _ => True := by
  refine (state.arena.careful_focus state.redex).bind fun focus _ => ?_
  cases focus with
  | inner side ref => trivial
  | ready function argument => exact careful_contract _ _ _ _ _

theorem careful_run (fuel : Nat) (state : Counting) : Careful (run fuel state) fun _ => True := by
  induction fuel generalizing state with
  | zero => exact fun _ hfault => nomatch hfault
  | succ fuel ih =>
      have hturn := careful_turn fuel state
      rw [run]
      cases hnext : turn fuel state with
      | error fault =>
          rw [hnext] at hturn
          exact hturn
      | ok next =>
          cases next with
          | further state => exact ih state
          | stuck => trivial
          | counted n => trivial

end Counting

/-- Reading a number only releases nodes of the arena: it is counted with a copy. -/
theorem Arena.careful_toNumber {α : Type} (fuel : Nat) (arena : Arena α) (root : Ref) :
    Careful (arena.toNumber fuel root) fun result => arena.Edits result.2 := by
  refine (arena.careful_transplant fuel root _ _).bind fun planted _ => ?_
  refine (careful_releaseTree fuel arena root).bind fun arena' hedits => ?_
  exact (Counting.careful_run fuel _).bind fun _ _ => .ok hedits

end LambdaMachine
