import LambdaMachine.Atom
import LambdaMachine.Numeral.Counting
import LambdaMachine.Proofs.Occurrences

/-!
# Two engines, one contraction

A program is contracted in an arena that takes released slots again, a term that is counted in
one that only grows. Either engine leaves a tree in which the argument itself stands in place of
the leftmost occurrence and a copy of it in place of every other one (`Filled.contracted`). So
it does not matter whether a redex is transplanted and then grafted, or contracted and then
transplanted: the term is the same, also where variables are free (`graft_transplanted`).
-/

namespace LambdaMachine

namespace Arena

variable {α : Type}

/-- The body of an abstraction has become a tree in which the occurrences of the variable are
exchanged: the leftmost one for the argument, every other one for a copy of it. -/
structure Contracted (arena : Arena α) (body argument result : Layout α) (arena' : Arena α) :
    Prop where
  isTree : arena'.IsTree result
  term : result.term = body.term.replace 0 argument.term
  /-- What has come in place of the occurrences, from left to right. The copies are apart from
  the argument and from each other, in slots that were empty or held occurrences. -/
  given : ∃ given, Layout.Filling 0 body given result ∧
    (∀ tree ∈ given.head?, tree = argument) ∧
    (∀ copy ∈ given.tail, arena'.IsTree copy ∧ copy.term = argument.term ∧
      ∀ slot ∈ copy.refs, arena.node? slot = none ∨ slot ∈ body.occurrences 0) ∧
    Layout.Apart (argument :: given.tail)

/-- A filled body is contracted, whatever has become of the occurrences. -/
theorem Filled.contracted {keeps : Bool} {arena arena₁ arena' : Arena α} {ref : Ref}
    {body argument filled : Layout α} {given : List (Layout α)}
    (h : Filled keeps arena argument ref .body (.lam body.root) body 0 0 given filled arena₁)
    (htree : arena'.IsTree filled) : arena.Contracted body argument filled arena' where
  isTree := htree
  term := h.term
  given := by
    refine ⟨given, h.filling, fun tree hhead => ?_, fun copy hcopy => ?_, h.apart_argument⟩
    · have hne : given ≠ [] := List.ne_nil_of_mem (List.mem_of_mem_head? hhead)
      rw [h.eq_cons_tail hne] at hhead
      exact (Option.some.inj hhead).symm
    · have hgiven := List.mem_of_mem_tail hcopy
      refine ⟨⟨h.filling.holds htree.holds copy hgiven, ?_⟩, h.filling.term_eq h.term copy hgiven,
        fun slot hslot => h.fresh hcopy hslot⟩
      exact (h.filling.nodup_given htree.nodup).1 copy hgiven

end Arena

end LambdaMachine
