import LambdaMachine.Proofs.Counting
import LambdaMachine.Proofs.Remnants
import Mathlib.Tactic.IntervalCases
import Mathlib.Tactic.Linarith
import Mathlib.Tactic.Zify

/-!
# What operations do to a forest

Each operation on whole trees takes slots for the trees that it makes, gives up those of its
operands, and leaves the other trees of a forest as they are, with the same nodes in the same
slots. How many slots are live afterwards is known from the term alone
(`accounts_of_forest`).
-/

namespace LambdaMachine.Arena

namespace Forest

variable {α : Type} {arena arena' : Arena α} {trees rest : List (Layout α)} {tree : Layout α}

/-- One tree is taken besides the others. -/
theorem cons (h : arena.Forest trees) (htree : arena'.IsTree tree)
    (hexchange : Exchange arena [] tree.refs arena') :
    arena'.Forest (tree :: trees) ∧ arena'.live = arena.live + tree.term.size := by
  have htaken : Replaces arena [] [tree] arena' := .of_isTree htree hexchange
  have hforest : arena'.Forest (tree :: trees) := htaken.forest h
  refine ⟨hforest, ?_⟩
  rw [hforest.live_eq, h.live_eq, List.flatMap_cons, List.length_append, Layout.length_refs,
    Nat.add_comm]

/-- One tree is given up, and the others stay. -/
theorem of_gone (h : arena.Forest trees) (hperm : trees.Perm (tree :: rest))
    (hgone : Exchange arena tree.refs [] arena') :
    arena'.Forest rest ∧ arena'.live + tree.term.size = arena.live := by
  have hforest := h.perm hperm
  have hreplaces : Replaces arena [tree] [] arena' := .of_gone (by simpa using hgone)
  have hrest : arena'.Forest rest := hreplaces.forest hforest
  refine ⟨hrest, ?_⟩
  rw [hforest.live_eq, hrest.live_eq, List.flatMap_cons, List.length_append, Layout.length_refs,
    Nat.add_comm]

theorem exists_clone (h : arena.Forest trees) {layout : Layout α} (hholds : arena.Holds layout) :
    ∃ copy arena', Finishes (fun fuel => arena.clone fuel layout.root) (copy.root, arena') ∧
      arena'.Forest (copy :: trees) ∧ arena'.live = arena.live + layout.term.size := by
  obtain ⟨copy, arena', hterm, hclone, htree, hexchange⟩ := h.wellFormed.finishes_clone hholds
  obtain ⟨hforest, hlive⟩ := h.cons htree hexchange
  exact ⟨copy, arena', hclone, hforest, hterm ▸ hlive⟩

/-- Contracting gives up the abstraction and its argument for one tree. -/
theorem exists_beta (h : arena.Forest trees) {ref : Ref} {body argument : Layout α}
    (hperm : trees.Perm (.lam ref body :: argument :: rest)) :
    ∃ result arena', Finishes (fun fuel => arena.beta fuel ref argument.root)
        (result.root, arena') ∧
      arena'.Forest (result :: rest) ∧
      arena'.live + body.term.occurrences 0 + argument.term.size + 1 =
        arena.live + body.term.occurrences 0 * argument.term.size := by
  have hforest := h.perm hperm
  have hfunction := hforest.isTree _ List.mem_cons_self
  have hargument := hforest.isTree argument (List.mem_cons_of_mem _ List.mem_cons_self)
  have hdisjoint := (List.pairwise_cons.mp hforest.apart).1 argument List.mem_cons_self
  obtain ⟨result, arena', hterm, hbeta, hresult, hexchange⟩ :=
    hfunction.finishes_beta hforest.wellFormed hargument (List.disjoint_symm hdisjoint)
  have hreplaces : Replaces arena [.lam ref body, argument] [result] arena' :=
    .of_isTree hresult (by simpa [Layout.refs] using hexchange)
  have hforest' : arena'.Forest (result :: rest) := hreplaces.forest hforest
  refine ⟨result, arena', hbeta, hforest', ?_⟩
  have hsize := Term.size_replace body.term 0 argument.term
  rw [← hterm] at hsize
  rw [hforest'.live_eq, hforest.live_eq]
  simp only [List.flatMap_cons, List.length_append, Layout.length_refs, Layout.term, Term.size]
  omega

theorem exists_toNumber (h : arena.Forest trees) (hperm : trees.Perm (tree :: rest)) :
    ∃ arena', arena'.Forest rest ∧ arena'.live + tree.term.size = arena.live ∧
      ∀ fuel, arena.toNumber fuel tree.root = .error .outOfFuel ∨
        ∃ number, arena.toNumber fuel tree.root = .ok (number, arena') := by
  obtain ⟨arena', hgone, hnumber⟩ := ((h.perm hperm).isTree _ List.mem_cons_self).exists_toNumber
  obtain ⟨hforest, hlive⟩ := h.of_gone hperm hgone
  exact ⟨arena', hforest, hlive, hnumber⟩

theorem exists_releaseTree (h : arena.Forest trees) (hperm : trees.Perm (tree :: rest)) :
    ∃ arena', Finishes (fun fuel => arena.releaseTree fuel tree.root) arena' ∧
      arena'.Forest rest ∧ arena'.live + tree.term.size = arena.live := by
  obtain ⟨arena', hrelease, hgone⟩ :=
    ((h.perm hperm).isTree _ List.mem_cons_self).finishes_releaseTree
  exact ⟨arena', hrelease, h.of_gone hperm hgone⟩

theorem exists_church (h : arena.Forest trees) (n : Nat) :
    ∃ tree arena', arena.church n = (tree.root, arena') ∧ arena'.Forest (tree :: trees) ∧
      arena'.live = arena.live + (2 * n + 3) := by
  obtain ⟨tree, arena', hchurch, hterm, htree, hexchange⟩ := h.wellFormed.exists_church n
  obtain ⟨hforest, hlive⟩ := h.cons htree hexchange
  rw [hterm, Term.size_numeral] at hlive
  exact ⟨tree, arena', hchurch, hforest, hlive⟩

end Forest

section Reading

variable {arena : Program} {trees : List (Layout Atom)}

/-- A program is read into one tree more, with a node for each token. -/
theorem Forest.exists_parse (h : arena.Forest trees) {text : String} {root : Ref}
    (hok : (Source.parse text arena).result = .ok root) :
    ∃ tokens tree, Source.Spells tokens text.toList ∧ tree.root = root ∧
      (Source.parse text arena).arena.Forest (tree :: trees) ∧
      (Source.parse text arena).arena.live = arena.live + tokens.length := by
  obtain ⟨tokens, term, hspells, hderives⟩ := Source.exists_isProgram h.wellFormed hok
  obtain ⟨tree, rfl, hok', htree, hexchange⟩ :=
    Source.IsProgram.exists_parse h.wellFormed hspells hderives
  obtain ⟨hforest, hlive⟩ := h.cons htree hexchange
  refine ⟨tokens, tree, hspells, Except.ok.inj (hok'.symm.trans hok), hforest, ?_⟩
  rw [hlive, hderives.length_eq]

/-- What a rejected text leaves behind are trees. -/
theorem Forest.exists_rejected (h : arena.Forest trees) (text : String) :
    ∃ built, (Source.parse text arena).arena.Forest (built ++ trees) := by
  obtain ⟨built, hreplaces, _⟩ := Source.exists_remnants text h.wellFormed
  exact ⟨built, hreplaces.forest h⟩

end Reading

/-- Every operation on whole trees leaves the other trees of a forest as they are, makes a forest
of it again, and changes the number of live slots by what the terms tell. -/
theorem accounts_of_forest {arena : Program} {trees : List (Layout Atom)}
    (h : arena.Forest trees) :
    (∀ text root, (Source.parse text arena).result = .ok root →
      ∃ tokens tree, Source.Spells tokens text.toList ∧ tree.root = root ∧
        (Source.parse text arena).arena.Forest (tree :: trees) ∧
        (Source.parse text arena).arena.live = arena.live + tokens.length) ∧
    (∀ text error, (Source.parse text arena).result = .error error →
      ∃ built, (Source.parse text arena).arena.Forest (built ++ trees)) ∧
    (∀ n, ∃ tree arena', arena.church n = (tree.root, arena') ∧
      arena'.Forest (tree :: trees) ∧ arena'.live = arena.live + (2 * n + 3)) ∧
    (∀ layout, arena.Holds layout → ∃ copy arena',
      Finishes (fun fuel => arena.clone fuel layout.root) (copy.root, arena') ∧
      arena'.Forest (copy :: trees) ∧ arena'.live = arena.live + layout.term.size) ∧
    (∀ ref body argument rest count, trees.Perm (.lam ref body :: argument :: rest) →
      body.term.occurrences 0 = count → ∃ result arena',
        Finishes (fun fuel => arena.beta fuel ref argument.root) (result.root, arena') ∧
        arena'.Forest (result :: rest) ∧
        (arena'.live : Int) = arena.live +
          if count = 0 then -(argument.term.size + 1 : Int)
          else (count - 1) * argument.term.size - count - 1) ∧
    (∀ tree rest, trees.Perm (tree :: rest) → ∃ arena', arena'.Forest rest ∧
      (arena'.live : Int) = arena.live - tree.term.size ∧
      ∀ fuel, arena.toNumber fuel tree.root = .error .outOfFuel ∨
        ∃ number, arena.toNumber fuel tree.root = .ok (number, arena')) ∧
    (∀ tree rest, trees.Perm (tree :: rest) → ∃ arena',
      Finishes (fun fuel => arena.releaseTree fuel tree.root) arena' ∧ arena'.Forest rest ∧
      (arena'.live : Int) = arena.live - tree.term.size) := by
  refine ⟨fun text root hok => h.exists_parse hok, fun text _ _ => h.exists_rejected text,
    h.exists_church, fun layout hholds => h.exists_clone hholds, ?_, ?_, ?_⟩
  · rintro ref body argument rest count hperm rfl
    obtain ⟨result, arena', hbeta, hforest, hlive⟩ := h.exists_beta hperm
    refine ⟨result, arena', hbeta, hforest, ?_⟩
    zify at hlive
    split
    next hzero =>
        rw [hzero] at hlive
        push_cast at hlive
        linarith
    next => linarith
  · intro tree rest hperm
    obtain ⟨arena', hforest, hlive, hnumber⟩ := h.exists_toNumber hperm
    exact ⟨arena', hforest, by omega, hnumber⟩
  · intro tree rest hperm
    obtain ⟨arena', hrelease, hforest, hlive⟩ := h.exists_releaseTree hperm
    exact ⟨arena', hrelease, hforest, by omega⟩

/-- An abstraction with two occurrences of its variable is contracted with the unit beside a third
tree. The abstraction and the two variables are given up, and the unit is copied once. -/
theorem accounts_of_self_application :
    Forest (⟨#[some (.lam 1), some (.app 2 3), some (.var 0), some (.var 0), some (.leaf .unit),
        some (.leaf .get)], []⟩ : Program)
      [.leaf 5 .get, .leaf 4 .unit, .lam 0 (.app 1 (.var 2 0) (.var 3 0))] ∧
    ∃ result arena', Finishes (fun fuel => beta fuel (⟨#[some (.lam 1), some (.app 2 3),
        some (.var 0), some (.var 0), some (.leaf .unit), some (.leaf .get)], []⟩ : Program) 0 4)
        (result.root, arena') ∧
      arena'.Forest [result, .leaf 5 .get] ∧ (arena'.live : Int) = 6 + (2 - 1) * 1 - 2 - 1 := by
  have hwf := (((((wellFormed_empty.alloc (.lam 1)).alloc (.app 2 3)).alloc (.var 0)).alloc
    (.var 0)).alloc (.leaf Atom.unit)).alloc (.leaf .get)
  have hforest : Forest (⟨#[some (.lam 1), some (.app 2 3), some (.var 0), some (.var 0),
      some (.leaf .unit), some (.leaf .get)], []⟩ : Program)
      [.leaf 5 .get, .leaf 4 .unit, .lam 0 (.app 1 (.var 2 0) (.var 3 0))] := by
    refine ⟨hwf, ?_, by simp [Layout.Apart, Layout.refs], fun ref hsome => ?_⟩
    · simp only [List.forall_mem_cons]
      exact ⟨⟨rfl, by simp [Layout.refs]⟩, ⟨rfl, by simp [Layout.refs]⟩,
        ⟨⟨rfl, rfl, rfl, rfl⟩, by simp [Layout.refs]⟩, by simp⟩
    · obtain ⟨node, hnode⟩ := Option.isSome_iff_exists.mp hsome
      have hlt : ref < 6 := lt_size_of_node? hnode
      interval_cases ref <;> simp [Layout.refs]
  obtain ⟨_, _, _, _, hbeta, _⟩ := accounts_of_forest hforest
  exact ⟨hforest, hbeta 0 (.app 1 (.var 2 0) (.var 3 0)) (.leaf 4 .unit) [.leaf 5 .get] 2
    (by decide) rfl⟩

end LambdaMachine.Arena
