import Mathlib.Algebra.Group.Nat.Defs
import LambdaMachine.Proofs.Numerals
import LambdaMachine.Proofs.Rereading

/-!
# Arithmetic of numerals

Expressions of numerals stand for numbers in the same way as numerals do: by what they make of
a function that adds. So their reductions, which copy numerals into each other, need not be
followed to the end, and the numbers may be beyond the limit of what can be counted
(`toNumber_arithmetic`).
-/

namespace LambdaMachine

namespace Term

variable {α : Type}

/-- Apply a function once more than its first argument does. -/
def successor : Term α :=
  lam (lam (lam (app (var 1) (app (app (var 2) (var 1)) (var 0)))))

/-- Apply a function as often as its second argument does, as often as the first one does. -/
def product : Term α :=
  lam (lam (lam (app (var 2) (app (var 1) (var 0)))))

/-! ### What the expressions stand for -/

variable {function : Term Tally} {amount : Nat}

/-- A function that is applied once more adds its amount once more. -/
theorem Adds.successor (h : function.Adds amount) (n : Nat) :
    (lam (app function (app (app (numeral n) function) (var 0)))).Adds ((n + 1) * amount) where
  closed := by
    refine ⟨h.closed.mono (Nat.zero_le 1), ⟨?_, h.closed.mono (Nat.zero_le 1)⟩, Nat.zero_lt_one⟩
    exact (closed_numeral n).mono (Nat.zero_le 1)
  isApp_eq := rfl
  comesTo k hk := by
    have hcontract : (app function (app (app (numeral n) function) (var 0))).contract
        (leaf (.count k)) =
          app function (app (app (numeral n) function) (leaf (.count k))) := by
      simp only [Term.contract, subst, subst_of_closedUnder h.closed,
        subst_of_closedUnder (closed_numeral n)]
      rfl
    have hinner : (app (app (numeral n) function) (leaf (.count k))).ComesTo
        (Tally.total (k + n * amount)) :=
      (comesTo_iterate h.closed h.isApp_eq n).app_function ((h.iterate n).comesTo k hk)
    have houter := h.comesTo_app hinner
    rw [Nat.add_assoc, ← Nat.succ_mul] at houter
    exact .contract rfl hcontract houter

theorem multiplies_successor (m : Nat) : (app successor (numeral m)).Multiplies (m + 1) := by
  have hclosed := closed_numeral (α := Tally) m
  -- The operand is put in place of the outermost variable, and waits there for the function.
  have hhead : (app successor (numeral m)).ComesTo
      (.ok (lam (lam (app (var 1) (app (app (numeral m) (var 1)) (var 0)))))) := by
    refine .contract rfl ?_ (.value rfl)
    simp [Term.contract, subst, shift_of_closedUnder hclosed]
  refine .of_comesTo hhead fun function amount h => ?_
  refine ⟨_, .contract h.isApp_eq ?_ (.value rfl), h.successor m⟩
  simp [Term.contract, subst, shift_of_closedUnder h.closed,
    subst_of_closedUnder (hclosed.mono (Nat.zero_le 1))]

theorem multiplies_product (m n : Nat) :
    (app (app product (numeral m)) (numeral n)).Multiplies (m * n) := by
  have hclosed := closed_numeral (α := Tally)
  have hfirst : (app product (numeral m)).ComesTo
      (.ok (lam (lam (app (numeral m) (app (var 1) (var 0)))))) := by
    refine .contract rfl ?_ (.value rfl)
    simp [Term.contract, subst, shift_of_closedUnder (hclosed m)]
  have hsecond : (app (app product (numeral m)) (numeral n)).ComesTo
      (.ok (lam (app (numeral m) (app (numeral n) (var 0))))) := by
    refine hfirst.app_function (.contract rfl ?_ (.value rfl))
    simp [Term.contract, subst, shift_of_closedUnder (hclosed n),
      subst_of_closedUnder ((hclosed m).mono (Nat.zero_le 1))]
  refine .of_comesTo hsecond fun function amount h => ?_
  have hinner := comesTo_iterate h.closed h.isApp_eq n
  have houter := comesTo_iterate (h.iterate n).closed rfl m
  refine ⟨_, .contract h.isApp_eq ?_ (.app_argument rfl hinner houter), ?_⟩
  · simp [Term.contract, subst, shift_of_closedUnder h.closed, subst_of_closedUnder (hclosed _)]
  · rw [Nat.mul_assoc]
    exact (h.iterate n).iterate m

/-- Each time that a numeral is applied to a function that adds, the amount is multiplied. -/
theorem Adds.exists_power (h : function.Adds amount) (n m : Nat) :
    ∃ result, (Nat.repeat (app (numeral n)) m function).ComesTo (.ok result) ∧
      result.Adds (n ^ m * amount) := by
  induction m with
  | zero =>
      refine ⟨function, .value h.isApp_eq, ?_⟩
      rwa [Nat.pow_zero, Nat.one_mul]
  | succ m ih =>
      obtain ⟨result, hresult, hadds⟩ := ih
      refine ⟨result.iterate n, .app_argument rfl hresult ?_, ?_⟩
      · exact comesTo_iterate hadds.closed hadds.isApp_eq n
      · rw [Nat.pow_succ, Nat.mul_comm (n ^ m) n, Nat.mul_assoc]
        exact hadds.iterate n

theorem multiplies_power (m n : Nat) : (app (numeral m) (numeral n)).Multiplies (n ^ m) := by
  refine .of_comesTo (comesTo_iterate (closed_numeral n) rfl m) fun function amount h => ?_
  obtain ⟨result, hresult, hadds⟩ := h.exists_power n m
  exact ⟨result, .contract h.isApp_eq (contract_repeat (closed_numeral n) h.closed m) hresult,
    hadds⟩

end Term

/-! ### Reading the expressions -/

/-- Every tree of the term is read as this number, or as none beyond the limit, and its slots are
given up. -/
def Term.ReadAs {α : Type} (term : Term α) (n : Nat) : Prop :=
  ∀ (arena : Arena α) (layout : Layout α), arena.IsTree layout → layout.term = term →
    ∃ arena', Finishes (fun fuel => arena.toNumber fuel layout.root)
        (if n ≤ Tally.limit then some n else none, arena') ∧
      arena.Exchange layout.refs [] arena'

namespace Arena

theorem readAs_of_multiplies {α : Type} {term : Term α} {n : Nat} (hclosed : term.Closed)
    (h : (term.map fun _ => Tally.inert).Multiplies n) : term.ReadAs n := by
  rintro arena layout htree rfl
  exact htree.finishes_toNumber hclosed h.counts

theorem isProgram_successor : Source.IsProgram "''',..,,... .. .".toList Term.successor :=
  @isProgram_plain_listing (.lam 0 (.lam 1 (.lam 2 (.app 3 (.var 4 1)
    (.app 5 (.app 6 (.var 7 2) (.var 8 1)) (.var 9 0))))))
    (by simp [Layout.term, Term.Closed, Term.ClosedUnder])
    (by simp [Layout.term, Term.Writable])

theorem isProgram_product : Source.IsProgram "''',...,.. .".toList Term.product :=
  @isProgram_plain_listing (.lam 0 (.lam 1 (.lam 2 (.app 3 (.var 4 2)
    (.app 5 (.var 6 1) (.var 7 0))))))
    (by simp [Layout.term, Term.Closed, Term.ClosedUnder])
    (by simp [Layout.term, Term.Writable])

/-- The successor of a numeral is read as the next number, the product of two numerals as the
product of their numbers, and a numeral applied to another as a power of its number, up to the
limit and no further. -/
theorem toNumber_arithmetic (m n : Nat) :
    (Source.IsProgram "''',..,,... .. .".toList Term.successor ∧
      (.app .successor (.numeral m) : Term Atom).ReadAs (m + 1)) ∧
    (Source.IsProgram "''',...,.. .".toList Term.product ∧
      (.app (.app .product (.numeral m)) (.numeral n) : Term Atom).ReadAs (m * n)) ∧
    (.app (.numeral m) (.numeral n) : Term Atom).ReadAs (n ^ m) := by
  have hm := Term.closed_numeral (α := Atom) m
  have hn := Term.closed_numeral (α := Atom) n
  have hsuccessor : (Term.successor : Term Atom).Closed := by
    simp [Term.successor, Term.Closed, Term.ClosedUnder]
  have hproduct : (Term.product : Term Atom).Closed := by
    simp [Term.product, Term.Closed, Term.ClosedUnder]
  refine ⟨⟨isProgram_successor, readAs_of_multiplies ⟨hsuccessor, hm⟩ ?_⟩,
    ⟨isProgram_product, readAs_of_multiplies ⟨⟨hproduct, hm⟩, hn⟩ ?_⟩,
    readAs_of_multiplies ⟨hm, hn⟩ ?_⟩
  · rw [Term.map, Term.map_numeral]
    exact Term.multiplies_successor m
  · rw [Term.map, Term.map, Term.map_numeral, Term.map_numeral]
    exact Term.multiplies_product m n
  · rw [Term.map, Term.map_numeral, Term.map_numeral]
    exact Term.multiplies_power m n

/-- Zero to the power of zero is read as one. -/
theorem toNumber_power_zero :
    ∃ fuel arena', (⟨#[some (.app 1 4), some (.lam 2), some (.lam 3), some (.var 0),
      some (.lam 5), some (.lam 6), some (.var 0)], []⟩ : Program).toNumber fuel 0 =
        .ok (some 1, arena') := by
  have htree : (⟨#[some (.app 1 4), some (.lam 2), some (.lam 3), some (.var 0), some (.lam 5),
      some (.lam 6), some (.var 0)], []⟩ : Program).IsTree
        (.app 0 (.lam 1 (.lam 2 (.var 3 0))) (.lam 4 (.lam 5 (.var 6 0)))) :=
    ⟨⟨rfl, ⟨rfl, rfl, rfl⟩, rfl, rfl, rfl⟩, by decide⟩
  obtain ⟨arena', hread, _⟩ := (toNumber_arithmetic 0 0).2.2 _ _ htree rfl
  obtain ⟨fuel, hread⟩ := hread.exists_ok
  exact ⟨fuel, arena', hread⟩

end Arena

end LambdaMachine
