import LambdaMachine.Proofs.Calls
import LambdaMachine.Proofs.Driving

/-!
# Hosts that act alike

A host can be run in place of another one if each of its worlds has an image among those of
the other, where every call has the same answer. Then the sessions of the one are images of
those of the other (`Host.Images.run`). A host that notes its calls acts as the host does
(`Host.images_noting`), so noting changes nothing.
-/

namespace LambdaMachine

variable {σ τ : Type}

/-- The worlds of the first host have images among those of the second, and the calls of the
two have the same answers there. -/
structure Host.Images (f : σ → τ) (host : Host σ) (host' : Host τ) : Prop where
  put : ∀ character world, host'.put character (f world) = f (host.put character world)
  shows : ∀ world, host'.shows (f world) = host.shows world
  get : ∀ text world, host'.get text (f world) =
    ((host.get text world).1, f (host.get text world).2)
  random : ∀ world, host'.random (f world) = ((host.random world).1, f (host.random world).2)
  log : ∀ text world, host'.log text (f world) = f (host.log text world)
  report : ∀ text world, host'.report text (f world) = f (host.report text world)
  sleep : ∀ world, host'.sleep (f world) = ((host.sleep world).1, f (host.sleep world).2)
  trace : ∀ diagnostic world, host'.trace diagnostic (f world) = f (host.trace diagnostic world)

/-- Hosts that act alike note the same calls. -/
theorem Host.Images.noting {f : σ → τ} {host : Host σ} {host' : Host τ} (h : host.Images f host') :
    host.noting.Images (Prod.map f id) host'.noting where
  put character world := by simp only [Host.noting, Prod.map, h.put, id]
  shows world := h.shows world.1
  get text world := by simp only [Host.noting, Prod.map, h.get, id]
  random world := by simp only [Host.noting, Prod.map, h.random, id]
  log text world := by simp only [Host.noting, Prod.map, h.log]
  report text world := by simp only [Host.noting, Prod.map, h.report]
  sleep world := by simp only [Host.noting, Prod.map, h.sleep]
  trace diagnostic world := by simp only [Host.noting, Prod.map, h.trace]

namespace Session

/-- The session in the image of its world. -/
def map (f : σ → τ) (session : Session σ) : Session τ :=
  ⟨session.machine, f session.world⟩

/-- The outcome in the image of its world. -/
def Outcome.map (f : σ → τ) (outcome : Outcome σ) : Outcome τ :=
  (outcome.1, outcome.2.map f)

end Session

namespace Host.Images

open Session (Outcome)

variable {f : σ → τ} {host : Host σ} {host' : Host τ}

/-- Work that begins alike and goes on in images ends in images. -/
theorem bind_same {α β γ : Type} {k : β → γ} {first : Except Fault α} {next : α → Except Fault β}
    {next' : α → Except Fault γ} (hnext : ∀ value, next' value = (next value).map k) :
    first >>= next' = (first >>= next).map k := by
  cases first with
  | error fault => rfl
  | ok value => exact hnext value

/-- Work that begins in images and goes on in images ends in images. -/
theorem bind_map {α α' β γ : Type} {j : α → α'} {k : β → γ} {first : Except Fault α}
    {first' : Except Fault α'} {next : α → Except Fault β} {next' : α' → Except Fault γ}
    (hfirst : first' = first.map j) (hnext : ∀ value, next' (j value) = (next value).map k) :
    first' >>= next' = (first >>= next).map k := by
  subst hfirst
  cases first with
  | error fault => rfl
  | ok value => exact hnext value

variable (h : host.Images f host')
include h

theorem install (result : Ref) (session : Session σ) :
    (session.map f).install host' result = (session.install host result).map (Session.map f) := by
  refine bind_same fun ⟨arena, cursor⟩ => ?_
  dsimp only
  split
  · change Except.ok _ = _
    rw [h.trace]
    rfl
  · rfl

theorem contract (fuel : Nat) (redex : Redex) (session : Session σ) :
    (session.map f).contract host' fuel redex =
      (session.contract host fuel redex).map (Session.map f) := by
  refine bind_same fun ⟨body, arena⟩ => bind_same fun arena => bind_same fun reducible => ?_
  split
  · exact bind_same fun _ => rfl
  · exact h.install body ⟨_, session.world⟩

theorem takeNumeral (fuel : Nat) (redex : Redex) (session : Session σ) :
    (session.map f).takeNumeral host' fuel redex =
      (session.takeNumeral host fuel redex).map (Outcome.map f) := by
  refine bind_same fun ⟨number, arena⟩ => bind_same fun arena => bind_same fun arena => ?_
  dsimp only
  split
  · exact bind_map (h.install _ ⟨_, session.world⟩) fun _ => rfl
  · exact bind_same fun _ => rfl

theorem giveByte (redex : Redex) (byte : UInt8) (session : Session σ) :
    (session.map f).giveByte host' redex byte =
      (session.giveByte host redex byte).map (Outcome.map f) :=
  bind_same fun _ => bind_map (h.install _ ⟨_, session.world⟩) fun _ => rfl

theorem drawByte (redex : Redex) (session : Session σ) :
    (session.map f).drawByte host' redex =
      (session.drawByte host redex).map (Outcome.map f) := by
  obtain ⟨machine, world⟩ := session
  simp only [Session.drawByte, Session.map, h.random]
  exact h.giveByte redex _ ⟨machine, _⟩

theorem putByte (redex : Redex) (number : Option Nat) (session : Session σ) :
    (session.map f).putByte host' redex number =
      (session.putByte host redex number).map (Outcome.map f) := by
  obtain ⟨⟨arena, cursor, assembler, splitter⟩, world⟩ := session
  unfold Session.putByte
  dsimp only [Session.map]
  split
  · rfl
  · rfl
  · refine bind_same fun arena => ?_
    split
    · rw [h.put]
      exact bind_map (h.install _ ⟨_, _⟩) fun _ => rfl
    · exact bind_map (h.install _ ⟨_, _⟩) fun _ => rfl

theorem nextChar (text : Unit → Except Fault String) (world : σ) :
    host'.nextChar text (f world) =
      (host.nextChar text world).map fun answer => (answer.1, f answer.2) := by
  unfold Host.nextChar
  rw [h.shows]
  split
  · refine bind_same fun text => ?_
    rw [h.get]
    rfl
  · rw [h.get]
    rfl

theorem nextByte (text : Unit → Except Fault String) (splitter : Utf8.Splitter) (world : σ) :
    host'.nextByte text splitter (f world) =
      (host.nextByte text splitter world).map fun answer =>
        (answer.1, answer.2.1, f answer.2.2) := by
  unfold Host.nextByte
  split
  · rfl
  · refine bind_map (h.nextChar text world) fun answer => ?_
    obtain ⟨character, world⟩ := answer
    cases character <;> rfl

theorem getByte (fuel : Nat) (redex : Redex) (session : Session σ) :
    (session.map f).getByte host' fuel redex =
      (session.getByte host fuel redex).map (Outcome.map f) := by
  obtain ⟨⟨arena, cursor, assembler, splitter⟩, world⟩ := session
  refine bind_map (h.nextByte _ splitter world) fun answer => ?_
  obtain ⟨byte, splitter, world⟩ := answer
  cases byte with
  | none => rfl
  | some byte => exact h.giveByte redex byte ⟨_, world⟩

omit h in
theorem withUnit (redex : Redex) {reduce : Session σ → Except Fault (Outcome σ)}
    {reduce' : Session τ → Except Fault (Outcome τ)} {session : Session σ}
    (hreduce : reduce' (session.map f) = (reduce session).map (Outcome.map f)) :
    (session.map f).withUnit redex reduce' =
      (session.withUnit redex reduce).map (Outcome.map f) := by
  refine bind_same fun operand => ?_
  split
  · exact hreduce
  · rfl

theorem traced (diagnostic : Diagnostic) (session : Session σ) :
    (session.map f).trace host' diagnostic = (session.trace host diagnostic).map f :=
  congrArg (Session.mk session.machine) (h.trace diagnostic session.world)

theorem reduce (fuel : Nat) (redex : Redex) (session : Session σ) :
    (session.map f).reduce host' fuel redex =
      (session.reduce host fuel redex).map (Outcome.map f) := by
  refine bind_same fun head => ?_
  dsimp only
  rw [h.traced]
  split
  · exact bind_map (h.contract fuel redex _) fun _ => rfl
  · exact h.takeNumeral fuel redex _
  · exact withUnit redex (h.putByte redex _ _)
  · exact withUnit redex (h.getByte fuel redex _)
  · exact withUnit redex (h.drawByte redex _)
  · rfl

theorem step (fuel : Nat) (session : Session σ) :
    (session.map f).step host' fuel = (session.step host fuel).map (Outcome.map f) := by
  obtain ⟨⟨arena, cursor, assembler, splitter⟩, world⟩ := session
  unfold Session.step
  dsimp only [Session.map]
  split
  · rfl
  · refine bind_same fun focus => ?_
    cases focus with
    | inner side ref => rfl
    | ready function argument => exact h.reduce fuel _ ⟨_, world⟩

theorem pause (budget : Option Nat) (session : Session σ) :
    (session.map f).pause host' budget = (session.pause host budget).map f := by
  obtain ⟨machine, world⟩ := session
  unfold Session.pause
  have hover : (Session.map f ⟨machine, world⟩).isOver budget =
    (⟨machine, world⟩ : Session σ).isOver budget := rfl
  rw [hover]
  split
  · rfl
  · simp only [Session.map, h.sleep]
    rfl

omit h in
theorem isOver_map (budget : Option Nat) (session : Session σ) :
    (session.map f).isOver budget = session.isOver budget :=
  rfl

theorem drive (fuel : Nat) (budget : Option Nat) (session : Session σ) :
    (session.map f).drive host' fuel budget =
      (session.drive host fuel budget).map (Outcome.map f) := by
  induction fuel generalizing budget session with
  | zero =>
      unfold Session.drive
      rw [isOver_map]
      split <;> rfl
  | succ fuel ih =>
      cases hover : session.isOver budget with
      | true =>
          have hover' : (session.map f).isOver budget = true := hover
          rw [Session.drive_of_over hover, Session.drive_of_over hover']
          rfl
      | false =>
          have hover' : (session.map f).isOver budget = false := hover
          rw [Session.drive_of_going hover, Session.drive_of_going hover']
          refine bind_map (h.step fuel session) fun outcome => ?_
          obtain ⟨failure, stepped⟩ := outcome
          cases failure with
          | some failure => rfl
          | none =>
              dsimp only [Outcome.map]
              rw [h.pause]
              obtain ⟨failure, next⟩ := stepped.pause host (budget.map (· - 1))
              cases failure with
              | some failure => rfl
              | none => exact ih _ next

theorem logListing (fuel : Nat) (session : Session σ) :
    (session.map f).logListing host' fuel =
      (session.logListing host fuel).map (Session.map f) := by
  refine bind_same fun text => ?_
  exact congrArg (fun world => Except.ok (Session.mk session.machine world)) (h.log text _)

theorem fail (fuel : Nat) (failure : Failure) (session : Session σ) :
    (session.map f).fail host' fuel failure =
      (session.fail host fuel failure).map (Session.map f) := by
  obtain ⟨machine, world⟩ := session
  unfold Session.fail
  simp only [Session.trace, Session.map, h.trace, h.report]
  refine bind_map (h.logListing fuel ⟨machine, _⟩) fun logged => ?_
  exact congrArg Except.ok (h.traced .unloaded ⟨.empty, logged.world⟩)

/-- A run with the second host is the image of the run with the first one. -/
theorem run (fuel : Nat) (budget : Option Nat) (log : Bool) (session : Session σ) :
    (session.map f).run host' fuel budget log =
      (session.run host fuel budget log).map (Outcome.map f) := by
  refine bind_map (h.drive fuel budget session) fun outcome => ?_
  obtain ⟨failure, last⟩ := outcome
  cases failure with
  | some failure => exact bind_map (h.fail fuel failure last) fun _ => rfl
  | none =>
      cases log with
      | false => rfl
      | true => exact bind_map (h.logListing fuel last) fun _ => rfl

/-- The outcomes with the second host are the images of those with the first one. -/
theorem run_eq_ok_iff {fuel : Nat} {budget : Option Nat} {log : Bool} {session : Session σ}
    {image : Outcome τ} :
    (session.map f).run host' fuel budget log = .ok image ↔
      ∃ outcome, session.run host fuel budget log = .ok outcome ∧ image = outcome.map f := by
  rw [h.run]
  constructor
  · intro hrun
    cases hrun' : session.run host fuel budget log with
    | error fault =>
        rw [hrun'] at hrun
        cases hrun
    | ok outcome =>
        rw [hrun'] at hrun
        exact ⟨outcome, rfl, (Except.ok.inj hrun).symm⟩
  · rintro ⟨outcome, hrun, rfl⟩
    rw [hrun]
    rfl

theorem finishes_run {budget : Option Nat} {log : Bool} {session : Session σ}
    {outcome : Outcome σ} (hrun : Finishes (fun fuel => session.run host fuel budget log) outcome) :
    Finishes (fun fuel => (session.map f).run host' fuel budget log) (outcome.map f) := by
  obtain ⟨bound, hrun⟩ := hrun
  exact ⟨bound, fun fuel hfuel => h.run_eq_ok_iff.mpr ⟨outcome, hrun fuel hfuel, rfl⟩⟩

end Host.Images

end LambdaMachine
