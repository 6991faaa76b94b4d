import LambdaMachine.Proofs.Counting

/-!
# What numerals count

A numeral turns a function that adds an amount to every count into one that adds so many times
this amount (`multiplies_numeral`). What does so stands for this number, whether it is a numeral
or an expression of numerals: it counts up to the number, or beyond the limit to none
(`Multiplies.counts`).
-/

namespace LambdaMachine

/-- What counting up to a number comes to. There is no count beyond the limit. -/
def Tally.total (n : Nat) : Except Unit (Term Tally) :=
  if n ≤ Tally.limit then .ok (.leaf (.count n)) else .error ()

theorem Tally.number?_total (n : Nat) :
    Tally.number? (Tally.total n) = if n ≤ Tally.limit then some n else none := by
  unfold total
  split <;> rfl

theorem Tally.word_le_limit (word : UInt32) : word.toNat ≤ Tally.limit :=
  Nat.le_of_lt_succ word.toNat_lt

theorem Tally.byte_le_limit (byte : UInt8) : byte.toNat ≤ Tally.limit :=
  Nat.le_of_lt (Nat.lt_of_lt_of_le byte.toNat_lt (by decide))

namespace Term

variable {α β ε σ : Type} {rule : Rule α ε σ}

/-! ### Applying numerals -/

theorem numeral_injective {m n : Nat} (h : (numeral m : Term α) = numeral n) : m = n := by
  have hsize := congrArg size h
  rw [size_numeral, size_numeral] at hsize
  omega

theorem map_numeral (relabel : α → β) (n : Nat) :
    (numeral n : Term α).map relabel = numeral n := by
  have hbody : ∀ k, (Nat.repeat (app (var 1)) k (var 0) : Term α).map relabel =
      Nat.repeat (app (var 1)) k (var 0) := by
    intro k
    induction k with
    | zero => rfl
    | succ k ih => exact congrArg (app (var 1)) ih
  exact congrArg (fun body => lam (lam body)) (hbody n)

/-- A numeral passes its function on to where it is applied. -/
theorem subst_repeat {function : Term α} (hfunction : function.Closed) (k : Nat) :
    (Nat.repeat (app (var 1)) k (var 0)).subst 1 function =
      Nat.repeat (app function) k (var 0) := by
  induction k with
  | zero => rfl
  | succ k ih =>
      have hvar : (var 1).subst 1 function = function := shift_of_closedUnder hfunction 1
      exact congrArg₂ app hvar ih

/-- Where no variable is free, nothing is substituted. -/
theorem subst_of_closedUnder {depth : Nat} {term : Term α} (hclosed : term.ClosedUnder depth)
    (argument : Term α) : term.subst depth argument = term := by
  induction term generalizing depth with
  | lam body ih => exact congrArg lam (ih hclosed)
  | app function operand ihf iho => exact congrArg₂ app (ihf hclosed.1) (iho hclosed.2)
  | var index => exact if_pos hclosed
  | leaf value => rfl

theorem contract_repeat {function start : Term α} (hfunction : function.Closed)
    (hstart : start.Closed) (k : Nat) :
    (Nat.repeat (app function) k (var 0)).contract start = Nat.repeat (app function) k start := by
  induction k with
  | zero => exact shift_of_closedUnder hstart 0
  | succ k ih => exact congrArg₂ app (subst_of_closedUnder hfunction start) ih

theorem closedUnder_repeat {function : Term α} (hfunction : function.Closed) (k : Nat) :
    (Nat.repeat (app function) k (var 0)).ClosedUnder 1 := by
  induction k with
  | zero => exact Nat.zero_lt_one
  | succ k ih => exact ⟨hfunction.mono (Nat.zero_le 1), ih⟩

/-- An abstraction is applied, and gives this term to be evaluated further. -/
theorem Evaluates.exists_contract {state state₁ state₂ state₃ : σ}
    {function argument body operand result : Term α} {outcome : Except ε (Term α)}
    {steps₁ steps₂ steps₃ : Nat}
    (hfunction : Evaluates rule state function (.ok (lam body)) state₁ steps₁)
    (hargument : Evaluates rule state₁ argument (.ok operand) state₂ steps₂)
    (hresult : body.contract operand = result)
    (hbody : Evaluates rule state₂ result outcome state₃ steps₃) :
    ∃ steps, Evaluates rule state (app function argument) outcome state₃ steps := by
  subst hresult
  exact ⟨_, hfunction.contract hargument hbody⟩

/-! ### Outcomes of counting -/

variable {function argument head operand body result term start : Term Tally}
  {outcome : Except Unit (Term Tally)} {amount k n : Nat}

/-- Counting evaluates the term to this outcome. -/
def ComesTo (term : Term Tally) (outcome : Except Unit (Term Tally)) : Prop :=
  ∃ steps, Evaluates Tally.Rule () term outcome () steps

namespace ComesTo

theorem value (hvalue : term.isApp = false) : term.ComesTo (.ok term) :=
  ⟨0, .value hvalue⟩

/-- The function part may be evaluated beforehand. -/
theorem app_function (hfunction : function.ComesTo (.ok head))
    (happly : (app head argument).ComesTo outcome) : (app function argument).ComesTo outcome := by
  obtain ⟨_, hfunction⟩ := hfunction
  obtain ⟨_, happly⟩ := happly
  cases happ : function.isApp with
  | true => exact ⟨_, hfunction.app_function Tally.rule_valued happ happly⟩
  | false =>
      cases (hfunction.eq_of_value happ).1
      exact ⟨_, happly⟩

/-- The argument part of a value may be evaluated beforehand. -/
theorem app_argument (hhead : head.isApp = false) (hargument : argument.ComesTo (.ok operand))
    (happly : (app head operand).ComesTo outcome) : (app head argument).ComesTo outcome := by
  obtain ⟨_, hargument⟩ := hargument
  obtain ⟨_, happly⟩ := happly
  cases happ : argument.isApp with
  | true => exact ⟨_, hargument.app_argument Tally.rule_valued hhead happ happly⟩
  | false =>
      cases (hargument.eq_of_value happ).1
      exact ⟨_, happly⟩

theorem argument_fails (hhead : head.isApp = false) (hargument : argument.ComesTo (.error ())) :
    (app head argument).ComesTo (.error ()) := by
  obtain ⟨_, hargument⟩ := hargument
  exact ⟨_, .argumentFails (.value hhead) hargument⟩

/-- An abstraction is applied to a value, and this term is evaluated further. -/
theorem contract (hvalue : operand.isApp = false) (hresult : body.contract operand = result)
    (h : result.ComesTo outcome) : (app (lam body) operand).ComesTo outcome := by
  obtain ⟨_, heval⟩ := h
  exact (Evaluates.value rfl).exists_contract (.value hvalue) hresult heval

end ComesTo

/-! ### Functions that add -/

/-- A function that leads from every count to the one that is larger by an amount. -/
structure Adds (function : Term Tally) (amount : Nat) : Prop where
  closed : function.Closed
  isApp_eq : function.isApp = false
  comesTo : ∀ k, k ≤ Tally.limit →
    (app function (leaf (.count k))).ComesTo (Tally.total (k + amount))

theorem comesTo_count (hk : k ≤ Tally.limit) :
    (leaf (.count k) : Term Tally).ComesTo (Tally.total k) := by
  rw [Tally.total, if_pos hk]
  exact .value rfl

/-- Beyond the limit there is nothing to add to, and the refusal is passed on. -/
theorem Adds.comesTo_app (h : function.Adds amount) (hterm : term.ComesTo (Tally.total k)) :
    (app function term).ComesTo (Tally.total (k + amount)) := by
  by_cases hk : k ≤ Tally.limit
  · rw [Tally.total, if_pos hk] at hterm
    exact .app_argument h.isApp_eq hterm (h.comesTo k hk)
  · rw [Tally.total, if_neg hk] at hterm
    rw [Tally.total, if_neg (by omega)]
    exact .argument_fails h.isApp_eq hterm

theorem Adds.comesTo_repeat (h : function.Adds amount) (hstart : start.ComesTo (Tally.total k))
    (n : Nat) : (Nat.repeat (app function) n start).ComesTo (Tally.total (k + n * amount)) := by
  induction n with
  | zero =>
      rw [Nat.zero_mul, Nat.add_zero]
      exact hstart
  | succ n ih =>
      rw [Nat.succ_mul, ← Nat.add_assoc]
      exact h.comesTo_app ih

theorem adds_increment : (leaf .increment : Term Tally).Adds 1 where
  closed := trivial
  isApp_eq := rfl
  comesTo k hk := by
    by_cases hlt : k < Tally.limit
    · have hnext : Tally.next? k = some (.count (k + 1)) := if_pos hlt
      rw [Tally.total, if_pos (Nat.succ_le_of_lt hlt)]
      exact ⟨_, .rule (.value rfl) rfl (.value rfl) (.next hnext)⟩
    · have hnext : Tally.next? k = none := if_neg hlt
      rw [Tally.total, if_neg (by omega)]
      refine ⟨_, .rule (.value rfl) rfl (.value rfl) (.stuck fun n tally _ hoperand => ?_)⟩
      cases hoperand
      simp [hnext]

/-- The function that applies another one so many times. -/
def iterate (function : Term α) (n : Nat) : Term α :=
  lam (Nat.repeat (app function) n (var 0))

theorem comesTo_iterate (hclosed : function.Closed) (hvalue : function.isApp = false) (n : Nat) :
    (app (numeral n) function).ComesTo (.ok (iterate function n)) :=
  .contract hvalue (congrArg lam (subst_repeat hclosed n)) (.value rfl)

theorem Adds.iterate (h : function.Adds amount) (n : Nat) :
    (function.iterate n).Adds (n * amount) where
  closed := closedUnder_repeat h.closed n
  isApp_eq := rfl
  comesTo k hk := by
    have hcount : (leaf (.count k) : Term Tally).Closed := trivial
    exact .contract rfl (contract_repeat h.closed hcount n)
      (h.comesTo_repeat (comesTo_count hk) n)

/-! ### Terms that stand for numbers -/

/-- A term that makes a function add `n` times as much. -/
def Multiplies (term : Term Tally) (n : Nat) : Prop :=
  ∀ function amount, Adds function amount →
    ∃ product, (app term function).ComesTo (.ok product) ∧ product.Adds (n * amount)

theorem multiplies_numeral (n : Nat) : (numeral n).Multiplies n := by
  intro function amount h
  exact ⟨function.iterate n, comesTo_iterate h.closed h.isApp_eq n, h.iterate n⟩

/-- What a term makes of a function does not depend on evaluating the term beforehand. -/
theorem Multiplies.of_comesTo (hterm : term.ComesTo (.ok head)) (h : head.Multiplies n) :
    term.Multiplies n := by
  intro function amount hadds
  obtain ⟨product, happly, hproduct⟩ := h function amount hadds
  exact ⟨product, hterm.app_function happly, hproduct⟩

/-- A term that multiplies by a number counts up to it, if it is within the limit. -/
theorem Multiplies.counts {term : Term α} (h : (term.map fun _ => Tally.inert).Multiplies n) :
    term.Counts (if n ≤ Tally.limit then some n else none) := by
  obtain ⟨product, happly, hproduct⟩ := h _ _ adds_increment
  have hcounted := happly.app_function (hproduct.comesTo 0 (Nat.zero_le _))
  rw [Nat.zero_add, Nat.mul_one] at hcounted
  obtain ⟨steps, heval⟩ := hcounted
  exact ⟨_, steps, heval, Tally.number?_total n⟩

theorem counts_numeral (hn : n ≤ Tally.limit) : (numeral n : Term α).Counts (some n) := by
  have hmultiplies : ((numeral n : Term α).map fun _ => Tally.inert).Multiplies n := by
    rw [map_numeral]
    exact multiplies_numeral n
  have hcounts := hmultiplies.counts
  rwa [if_pos hn] at hcounts

end Term

end LambdaMachine
