import LambdaMachine.Machine.Run

/-!
# More fuel keeps a finished run

Every operation of a session gives the same result under more fuel once it has given
one. So a result says nothing about the fuel it was found with, and that a run never
ends means that no fuel is enough.
-/

namespace LambdaMachine.Session

variable {σ : Type} {fuel fuel' : Nat}

theorem logListing_mono (hfuel : fuel ≤ fuel') (host : Host σ) (session : Session σ) :
    Refines (session.logListing host fuel) (session.logListing host fuel') :=
  .bind (Arena.listing_mono hfuel _ _ _) fun _ => .refl _

theorem contract_mono (hfuel : fuel ≤ fuel') (host : Host σ) (redex : Redex)
    (session : Session σ) :
    Refines (session.contract host fuel redex) (session.contract host fuel' redex) :=
  .bind (Arena.beta_mono hfuel _ _ _) fun _ => .refl _

theorem takeNumeral_mono (hfuel : fuel ≤ fuel') (host : Host σ) (redex : Redex)
    (session : Session σ) :
    Refines (session.takeNumeral host fuel redex) (session.takeNumeral host fuel' redex) :=
  .bind (Arena.toNumber_mono hfuel _ _) fun _ => .refl _

theorem getByte_mono (hfuel : fuel ≤ fuel') (host : Host σ) (redex : Redex)
    (session : Session σ) :
    Refines (session.getByte host fuel redex) (session.getByte host fuel' redex) := by
  refine .bind ?_ fun _ => .refl _
  unfold Host.nextByte
  split
  · exact .refl _
  · refine .bind ?_ fun _ => .refl _
    unfold Host.nextChar
    split
    · exact .bind (Arena.listing_mono hfuel _ _ _) fun _ => .refl _
    · exact .refl _

theorem withUnit_mono (redex : Redex)
    {reduce reduce' : Session σ → Except Fault (Outcome σ)}
    (hreduce : ∀ session, Refines (reduce session) (reduce' session))
    (session : Session σ) :
    Refines (session.withUnit redex reduce) (session.withUnit redex reduce') := by
  refine .bind (.refl _) fun operand => ?_
  split
  · exact hreduce session
  · exact .refl _

theorem reduce_mono (hfuel : fuel ≤ fuel') (host : Host σ) (redex : Redex)
    (session : Session σ) :
    Refines (session.reduce host fuel redex) (session.reduce host fuel' redex) := by
  refine .bind (.refl _) fun head => ?_
  dsimp only
  split
  · exact .bind (contract_mono hfuel host _ _) fun _ => .refl _
  · exact takeNumeral_mono hfuel host _ _
  · exact .refl _
  · exact withUnit_mono _ (getByte_mono hfuel host _) _
  · exact .refl _
  · exact .refl _

theorem step_mono (hfuel : fuel ≤ fuel') (host : Host σ) (session : Session σ) :
    Refines (session.step host fuel) (session.step host fuel') := by
  unfold step
  split
  · exact .refl _
  · refine .bind (.refl _) fun focus => ?_
    cases focus with
    | inner side ref => exact .refl _
    | ready function argument => exact reduce_mono hfuel host _ _

theorem drive_mono (hfuel : fuel ≤ fuel') (host : Host σ) (budget : Option Nat)
    (session : Session σ) :
    Refines (session.drive host fuel budget) (session.drive host fuel' budget) := by
  induction fuel generalizing fuel' budget session with
  | zero =>
      unfold drive
      split
      next hover => exact .refl _
      next hover => exact .inl rfl
  | succ fuel ih =>
      obtain ⟨fuel', rfl⟩ : ∃ n, fuel' = n + 1 := ⟨fuel' - 1, by omega⟩
      have hle : fuel ≤ fuel' := by omega
      unfold drive
      split
      · exact .refl _
      · refine .bind (step_mono hle host session) fun outcome => ?_
        split
        · exact .refl _
        · dsimp only
          split
          · exact .refl _
          · exact ih hle _ _

theorem fail_mono (hfuel : fuel ≤ fuel') (host : Host σ) (failure : Failure)
    (session : Session σ) :
    Refines (session.fail host fuel failure) (session.fail host fuel' failure) :=
  .bind (logListing_mono hfuel host _) fun _ => .refl _

/-- A run that has ended ends the same way under more fuel. -/
theorem run_mono (hfuel : fuel ≤ fuel') (host : Host σ) (budget : Option Nat) (log : Bool)
    (session : Session σ) :
    Refines (session.run host fuel budget log) (session.run host fuel' budget log) := by
  refine .bind (drive_mono hfuel host budget session) fun outcome => ?_
  split
  · exact .bind (fail_mono hfuel host _ _) fun _ => .refl _
  · split
    · exact .bind (logListing_mono hfuel host _) fun _ => .refl _
    · exact .refl _

end LambdaMachine.Session
