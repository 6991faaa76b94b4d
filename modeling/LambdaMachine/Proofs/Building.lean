import LambdaMachine.Numeral.Church
import LambdaMachine.Proofs.Exchange

/-!
# Building trees

Storing a node over trees that stand apart gives a tree of one node more. The numerals
are built so, from the innermost variable outwards.
-/

namespace LambdaMachine.Arena

variable {α : Type} {arena : Arena α} {body function argument : Layout α}

theorem WellFormed.exists_alloc_var (hwf : arena.WellFormed) (index : Nat) :
    ∃ ref arena', arena.alloc (.var index) = (ref, arena') ∧ arena'.IsTree (.var ref index) ∧
      Exchange arena [] [ref] arena' := by
  obtain ⟨ref, arena', halloc, hexchange, hnode⟩ := hwf.exists_alloc (.var index)
  exact ⟨ref, arena', halloc, ⟨hnode, List.nodup_singleton ref⟩, hexchange⟩

theorem WellFormed.exists_alloc_leaf (hwf : arena.WellFormed) (value : α) :
    ∃ ref arena', arena.alloc (.leaf value) = (ref, arena') ∧ arena'.IsTree (.leaf ref value) ∧
      Exchange arena [] [ref] arena' := by
  obtain ⟨ref, arena', halloc, hexchange, hnode⟩ := hwf.exists_alloc (.leaf value)
  exact ⟨ref, arena', halloc, ⟨hnode, List.nodup_singleton ref⟩, hexchange⟩

theorem WellFormed.exists_alloc_lam (hwf : arena.WellFormed) (hbody : arena.IsTree body) :
    ∃ ref arena', arena.alloc (.lam body.root) = (ref, arena') ∧
      arena'.IsTree (.lam ref body) ∧ Exchange arena [] [ref] arena' := by
  obtain ⟨ref, arena', halloc, hexchange, hnode⟩ := hwf.exists_alloc (.lam body.root)
  have hapart := hexchange.disjoint hbody.holds (List.disjoint_nil_right _)
  refine ⟨ref, arena', halloc, isTree_lam.mpr ⟨hnode, ?_, ?_⟩, hexchange⟩
  · exact List.disjoint_singleton.mp hapart
  · exact hexchange.isTree hbody (List.disjoint_nil_right _)

theorem WellFormed.exists_alloc_app (hwf : arena.WellFormed) (hfunction : arena.IsTree function)
    (hargument : arena.IsTree argument) (hdisjoint : function.refs.Disjoint argument.refs) :
    ∃ ref arena', arena.alloc (.app function.root argument.root) = (ref, arena') ∧
      arena'.IsTree (.app ref function argument) ∧ Exchange arena [] [ref] arena' := by
  obtain ⟨ref, arena', halloc, hexchange, hnode⟩ :=
    hwf.exists_alloc (.app function.root argument.root)
  have hapartf := hexchange.disjoint hfunction.holds (List.disjoint_nil_right _)
  have haparta := hexchange.disjoint hargument.holds (List.disjoint_nil_right _)
  refine ⟨ref, arena', halloc, isTree_app.mpr ⟨hnode, ⟨?_, ?_⟩, hdisjoint, ?_, ?_⟩, hexchange⟩
  · exact List.disjoint_singleton.mp hapartf
  · exact List.disjoint_singleton.mp haparta
  · exact hexchange.isTree hfunction (List.disjoint_nil_right _)
  · exact hexchange.isTree hargument (List.disjoint_nil_right _)

theorem repeat_succ {σ : Type} (f : σ → σ) (n : Nat) (start : σ) :
    Nat.repeat f n (f start) = Nat.repeat f (n + 1) start := by
  induction n with
  | zero => rfl
  | succ n ih =>
      change f (Nat.repeat f n (f start)) = _
      rw [ih]
      rfl

theorem WellFormed.exists_iterateOuter (hwf : arena.WellFormed) (hbody : arena.IsTree body)
    (n : Nat) :
    ∃ layout arena', iterateOuter n body.root arena = (layout.root, arena') ∧
      layout.term = Nat.repeat (.app (.var 1)) n body.term ∧ arena'.IsTree layout ∧
      Exchange arena body.refs layout.refs arena' := by
  induction n generalizing arena body with
  | zero => exact ⟨body, arena, rfl, rfl, hbody, .refl _ _⟩
  | succ n ih =>
      obtain ⟨left, arena₁, halloc, hleft, hgrow⟩ := hwf.exists_alloc_var 1
      have hbody₁ := hgrow.isTree hbody (List.disjoint_nil_right _)
      have hapart := hgrow.disjoint hbody.holds (List.disjoint_nil_right _)
      obtain ⟨ref, arena₂, halloc', htree, hgrow'⟩ :=
        (hgrow.wellFormed hwf).exists_alloc_app hleft hbody₁ (List.disjoint_symm hapart)
      obtain ⟨layout, arena', hiterate, hterm, hlayout, hexchange⟩ :=
        ih (hgrow'.wellFormed (hgrow.wellFormed hwf)) htree
      refine ⟨layout, arena', ?_, ?_, hlayout, ?_⟩
      · simp only [iterateOuter, halloc]
        rw [show arena₁.alloc (.app left body.root) = (ref, arena₂) from halloc']
        exact hiterate
      · rw [hterm]
        exact repeat_succ _ n _
      · have hnew := (hgrow.trans (hgrow'.frame [left])).frame body.refs
        exact hnew.trans (hexchange.of_mem_iff (by simp [Layout.refs]) fun _ => Iff.rfl)

/-- The numeral of `n` is built in new slots. -/
theorem WellFormed.exists_church (hwf : arena.WellFormed) (n : Nat) :
    ∃ layout arena', arena.church n = (layout.root, arena') ∧ layout.term = .numeral n ∧
      arena'.IsTree layout ∧ Exchange arena [] layout.refs arena' := by
  obtain ⟨innermost, arena₁, halloc, hinnermost, hgrow⟩ := hwf.exists_alloc_var 0
  obtain ⟨body, arena₂, hiterate, hterm, hbody, hexchange⟩ :=
    (hgrow.wellFormed hwf).exists_iterateOuter hinnermost n
  have hwf₂ := hexchange.wellFormed (hgrow.wellFormed hwf)
  obtain ⟨inner, arena₃, halloc₃, hinner, hgrow₃⟩ := hwf₂.exists_alloc_lam hbody
  obtain ⟨outer, arena₄, halloc₄, houter, hgrow₄⟩ :=
    (hgrow₃.wellFormed hwf₂).exists_alloc_lam hinner
  refine ⟨.lam outer (.lam inner body), arena₄, ?_, ?_, houter, ?_⟩
  · simp only [church, halloc]
    rw [show iterateOuter n innermost arena₁ = (body.root, arena₂) from hiterate]
    simp only [halloc₃]
    exact halloc₄
  · rw [Layout.term, Layout.term, hterm]
    rfl
  · have hbelow := (hgrow.trans hexchange).trans (hgrow₃.frame body.refs)
    exact hbelow.trans (hgrow₄.frame (inner :: body.refs))

end LambdaMachine.Arena
