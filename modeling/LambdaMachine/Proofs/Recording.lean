import LambdaMachine.Proofs.Hosts
import LambdaMachine.Proofs.Sessions

/-!
# Records of a run

A host can keep a journal beside its world: what a machine asked it and told it, apart from
diagnostics, and how often it paused. A host that is quiet is changed by nothing but
the contacts in its journal. A host that acts as a quiet one does keeps the journal of that,
and how many pauses there were before makes no difference (`Host.Images.recording`).
-/

namespace LambdaMachine

variable {σ τ : Type} {f : σ → τ} {host : Host σ} {host' : Host τ}

/-- What a machine asks its host or tells it. -/
inductive Contact where
  | put (character : Char)
  /-- A character was asked for, and the program was shown if there is a text. -/
  | get (text : Option String) (answer : Option Char)
  | random (byte : UInt8)
  | log (text : String)
  | report (text : String)
  deriving DecidableEq, Repr

/-- The contacts of a machine with its host in their order, and the number of pauses. -/
structure Journal where
  contacts : List Contact := []
  pauses : Nat := 0
  deriving DecidableEq, Repr

namespace Journal

/-- The journal with a contact behind the others. -/
def note (contact : Contact) (journal : Journal) : Journal :=
  { journal with contacts := journal.contacts ++ [contact] }

/-- The journal with one more pause. -/
def pause (journal : Journal) : Journal :=
  { journal with pauses := journal.pauses + 1 }

/-- The journal of a machine that had paused so often before. -/
def behind (pauses : Nat) (journal : Journal) : Journal :=
  { journal with pauses := journal.pauses + pauses }

end Journal

namespace Host

/-- The host that keeps a journal beside its world. -/
def recording (host : Host σ) : Host (σ × Journal) where
  put character world := (host.put character world.1, world.2.note (.put character))
  shows world := host.shows world.1
  get text world :=
    let (answer, next) := host.get text world.1
    (answer, (next, world.2.note (.get text answer)))
  random world :=
    let (byte, next) := host.random world.1
    (byte, (next, world.2.note (.random byte)))
  log text world := (host.log text world.1, world.2.note (.log text))
  report text world := (host.report text world.1, world.2.note (.report text))
  sleep world :=
    let (stop, next) := host.sleep world.1
    (stop, (next, world.2.pause))
  trace diagnostic world := (host.trace diagnostic world.1, world.2)

/-- Neither pauses nor diagnostics change the world of the host, and it never asks to stop. -/
structure Quiet (host : Host σ) : Prop where
  sleep : ∀ world, host.sleep world = (false, world)
  trace : ∀ diagnostic world, host.trace diagnostic world = world

/-- A host that keeps a journal acts as it does without. -/
theorem images_recording (host : Host σ) : host.recording.Images Prod.fst host where
  put _ _ := rfl
  shows _ := rfl
  get _ _ := rfl
  random _ := rfl
  log _ _ := rfl
  report _ _ := rfl
  sleep _ := rfl
  trace _ _ := rfl

namespace Images

/-- Hosts that act alike keep the same journal, and pauses that one of them had before make no
difference. -/
theorem recording (h : host.Images f host') (pauses : Nat) :
    host.recording.Images (Prod.map f (Journal.behind pauses)) host'.recording where
  put character world := by
    simp only [Host.recording, Prod.map, Journal.note, Journal.behind, h.put]
  shows world := h.shows world.1
  get text world := by simp only [Host.recording, Prod.map, Journal.note, Journal.behind, h.get]
  random world := by simp only [Host.recording, Prod.map, Journal.note, Journal.behind, h.random]
  log text world := by simp only [Host.recording, Prod.map, Journal.note, Journal.behind, h.log]
  report text world := by
    simp only [Host.recording, Prod.map, Journal.note, Journal.behind, h.report]
  sleep world := by
    simp only [Host.recording, Prod.map, Journal.pause, Journal.behind, h.sleep, Nat.add_right_comm]
  trace diagnostic world := by simp only [Host.recording, Prod.map, h.trace]

/-- What changes nothing in the image of a host leaves the image of the world. -/
theorem eq_of_performs (h : host.Images f host') (hquiet : host'.Quiet) {world world' : σ}
    (hperforms : host.Performs [] world world') : f world' = f world :=
  hperforms.eq_of_nil f fun diagnostic world => by rw [← h.trace, hquiet.trace]

open Session (Turns Drives Outcome)

variable {session : Session σ} {budget : Option Nat} {last : Option Nat × Session τ}

/-- The turns of the image are the images of the turns. -/
theorem turns_iff (h : host.Images f host') :
    Turns host' (budget, session.map f) last ↔
      ∃ next, Turns host (budget, session) (last.1, next) ∧ last.2 = next.map f := by
  obtain ⟨budget', image⟩ := last
  constructor
  · rintro ⟨hgoing, rfl, fuel, stepped', hstep, hpause⟩
    rw [h.step] at hstep
    match hstep' : session.step host fuel with
    | .error fault =>
        rw [hstep'] at hstep
        cases hstep
    | .ok (failure, stepped) =>
        rw [hstep'] at hstep
        cases hstep
        rw [h.pause] at hpause
        cases hpause' : stepped.pause host (budget.map (· - 1)) with
        | mk paused next =>
            rw [hpause'] at hpause
            cases hpause
            exact ⟨next, ⟨hgoing, rfl, fuel, stepped, hstep', hpause'⟩, rfl⟩
  · rintro ⟨next, ⟨hgoing, hbudget, fuel, stepped, hstep, hpause⟩, rfl⟩
    refine ⟨hgoing, hbudget, fuel, stepped.map f, ?_, ?_⟩
    · rw [h.step, hstep]
      rfl
    · rw [h.pause, hpause]
      rfl

theorem turns (h : host.Images f host') {before after : Option Nat × Session σ}
    (hturns : Turns host before after) :
    Turns host' (before.1, before.2.map f) (after.1, after.2.map f) :=
  h.turns_iff.mpr ⟨after.2, hturns, rfl⟩

/-- The turns of a run of the image are the images of those of the run. -/
theorem drives_iff (h : host.Images f host') :
    Drives host' (budget, session.map f) last ↔
      ∃ next, Drives host (budget, session) (last.1, next) ∧ last.2 = next.map f := by
  constructor
  · intro hdrives
    induction hdrives with
    | refl => exact ⟨session, .refl, rfl⟩
    | @tail middle last _ hturns ih =>
        obtain ⟨budget', image⟩ := middle
        obtain ⟨reached, hdrives, rfl⟩ := ih
        obtain ⟨next, hturns, heq⟩ := h.turns_iff.mp hturns
        exact ⟨next, hdrives.tail hturns, heq⟩
  · obtain ⟨budget', image⟩ := last
    rintro ⟨next, hdrives, rfl⟩
    exact hdrives.lift (fun before => (before.1, before.2.map f)) fun _ _ => h.turns

end Images

theorem Performs.contacts_prefix {calls : List Call} {world world' : σ × Journal}
    (hperforms : host.recording.Performs calls world world') :
    world.2.contacts <+: world'.2.contacts := by
  induction hperforms with
  | nil => exact List.prefix_rfl
  | trace _ ih => exact ih
  | put _ ih => exact (List.prefix_append _ _).trans ih
  | get hget _ ih =>
      cases hget
      exact (List.prefix_append _ _).trans ih
  | random hrandom _ ih =>
      cases hrandom
      exact (List.prefix_append _ _).trans ih

end Host

namespace Session

/-- The session with an empty journal beside its world. -/
def recorded (session : Session σ) : Session (σ × Journal) :=
  ⟨session.machine, (session.world, {})⟩

/-- These are the contacts up to some step of a run without a budget. -/
def Tells (host : Host σ) (session : Session σ) (contacts : List Contact) : Prop :=
  ∃ last, Drives host.recording (none, session.recorded) (none, last) ∧
    last.world.2.contacts = contacts

theorem worldKept_recording (host : Host σ) (contacts : List Contact) :
    WorldKept host.recording fun world => contacts <+: world.2.contacts where
  performs _ _ _ hperforms hcontacts := hcontacts.trans hperforms.contacts_prefix
  sleep _ hcontacts := hcontacts

/-- In a run, contacts are only ever added. -/
theorem contacts_prefix_of_drives {before after : Option Nat × Session (σ × Journal)}
    (hdrives : Drives host.recording before after) (h : before.2.machine.Settled) :
    before.2.world.2.contacts <+: after.2.world.2.contacts :=
  (worldKept_recording host _).of_drives hdrives h List.prefix_rfl

end Session

end LambdaMachine
