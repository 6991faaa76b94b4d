import LambdaMachine.Machine.Step

/-!
# Running

A run makes steps until the program ends or a budget of steps is used up, and pauses
between them. A failure is reported to the host with the text of the program as it
then stands, and empties the machine.
-/

namespace LambdaMachine.Session

variable {σ : Type}

/-- Whether there is no further step to make: the program has ended, or the budget is
used up. -/
def isOver (budget : Option Nat) (session : Session σ) : Bool :=
  session.machine.ended || budget == some 0

/-- Pause before a further step, if there is one to make. The host may ask to stop. -/
def pause (host : Host σ) (budget : Option Nat) (session : Session σ) : Outcome σ :=
  if session.isOver budget then (none, session)
  else
    let ⟨machine, world⟩ := session
    let (stop, world) := host.sleep world
    (if stop then some .aborted else none, ⟨machine, world⟩)

/-- Make steps, with a pause between any two of them, until the program ends, the
budget is used up, or something fails. -/
def drive (host : Host σ) (fuel : Nat) (budget : Option Nat) (session : Session σ) :
    Except Fault (Outcome σ) :=
  if session.isOver budget then .ok (none, session)
  else
    match fuel with
    | 0 => .error .outOfFuel
    | fuel + 1 => do
        match ← session.step host fuel with
        | (some failure, session) => return (some failure, session)
        | (none, session) =>
            let budget := budget.map (· - 1)
            match session.pause host budget with
            | (some failure, session) => return (some failure, session)
            | (none, session) => drive host fuel budget session

/-- Report a failure and remove the program. -/
def fail (host : Host σ) (fuel : Nat) (failure : Failure) (session : Session σ) :
    Except Fault (Session σ) := do
  let ⟨machine, world⟩ := session.trace host (.stopped failure)
  let session : Session σ := ⟨machine, host.report failure.message world⟩
  return (← session.logListing host fuel).unload host

/-- Run a program under a budget of steps, and log its listing afterwards if asked to.
A failure is reported and given back. -/
def run (host : Host σ) (fuel : Nat) (budget : Option Nat) (log : Bool)
    (session : Session σ) : Except Fault (Outcome σ) := do
  match ← session.drive host fuel budget with
  | (some failure, session) => return (some failure, ← session.fail host fuel failure)
  | (none, session) =>
      if log then
        return (none, ← session.logListing host fuel)
      else
        return (none, session)

end LambdaMachine.Session
