import LambdaMachine.Machine.Evaluation

/-!
# Calls of a host

What a program asks of its host is a list of calls, each with its answer. A host may
answer by anything that it has seen, also by the diagnostics and the pauses between. But
once a run is fixed, its answers are two sequences, of characters and of bytes, and a
host that only gives these can take the place of the real one.

`Host.noting` is a host that also keeps the list of its calls. `Answers.Explains` says
that the answers in a list of calls are those of the sequences.
-/

namespace LambdaMachine

variable {σ : Type}

/-- A call that a program makes, with its answer. -/
inductive Call where
  | put (character : Char)
  | get (answer : Option Char)
  | random (byte : UInt8)
  deriving DecidableEq, Repr

namespace Call

/-- The answer to a call for a character. -/
def character? : Call → Option (Option Char)
  | get answer => some answer
  | _ => none

/-- The answer to a call for a random byte. -/
def byte? : Call → Option UInt8
  | random byte => some byte
  | _ => none

end Call

namespace Host

/-- The host is asked these calls from one world to another, and is told diagnostics
between them. -/
inductive Performs (host : Host σ) : List Call → σ → σ → Prop where
  | nil {world} : Performs host [] world world
  | trace {diagnostic calls world world'}
      (hrest : Performs host calls (host.trace diagnostic world) world') :
      Performs host calls world world'
  | put {character calls world world'}
      (hrest : Performs host calls (host.put character world) world') :
      Performs host (.put character :: calls) world world'
  | get {text answer calls world world₁ world'} (hget : host.get text world = (answer, world₁))
      (hrest : Performs host calls world₁ world') :
      Performs host (.get answer :: calls) world world'
  | random {byte calls world world₁ world'} (hrandom : host.random world = (byte, world₁))
      (hrest : Performs host calls world₁ world') :
      Performs host (.random byte :: calls) world world'

theorem Performs.append {host : Host σ} {calls calls' : List Call} {world world₁ world₂ : σ}
    (hfirst : host.Performs calls world world₁) (hsecond : host.Performs calls' world₁ world₂) :
    host.Performs (calls ++ calls') world world₂ := by
  induction hfirst with
  | nil => exact hsecond
  | trace _ ih => exact .trace (ih hsecond)
  | put _ ih => exact .put (ih hsecond)
  | get hget _ ih => exact .get hget (ih hsecond)
  | random hrandom _ ih => exact .random hrandom (ih hsecond)

/-- Where nothing is asked, what diagnostics do not change stays the same. -/
theorem Performs.eq_of_nil {τ : Type} {host : Host σ} {world world' : σ} (f : σ → τ)
    (htrace : ∀ diagnostic world, f (host.trace diagnostic world) = f world)
    (hperforms : host.Performs [] world world') : f world' = f world := by
  generalize hcalls : ([] : List Call) = calls at hperforms
  induction hperforms with
  | nil => rfl
  | trace _ ih => rw [ih hcalls, htrace]
  | put => cases hcalls
  | get => cases hcalls
  | random => cases hcalls

/-- The host that notes its calls behind those noted before. -/
def noting (host : Host σ) : Host (σ × List Call) where
  put character world := (host.put character world.1, world.2 ++ [.put character])
  shows world := host.shows world.1
  get text world :=
    let (answer, next) := host.get text world.1
    (answer, (next, world.2 ++ [.get answer]))
  random world :=
    let (byte, next) := host.random world.1
    (byte, (next, world.2 ++ [.random byte]))
  log text world := (host.log text world.1, world.2)
  report text world := (host.report text world.1, world.2)
  sleep world :=
    let (stop, next) := host.sleep world.1
    (stop, (next, world.2))
  trace diagnostic world := (host.trace diagnostic world.1, world.2)

theorem Performs.notes_eq {host : Host σ} {calls : List Call} {world world' : σ × List Call}
    (hperforms : host.noting.Performs calls world world') : world'.2 = world.2 ++ calls := by
  induction hperforms with
  | nil => simp
  | trace _ ih => exact ih
  | put _ ih => simpa [noting] using ih
  | get hget _ ih =>
      cases hget
      simpa using ih
  | random hrandom _ ih =>
      cases hrandom
      simpa using ih

end Host

/-- The characters and the bytes that a host gives, in their order. -/
structure Answers where
  characters : Nat → Option Char
  bytes : Nat → UInt8

namespace Answers

/-- The host that gives these answers. Its world is the list of the calls so far. -/
def host (answers : Answers) : Host (List Call) where
  put character calls := calls ++ [.put character]
  shows _ := false
  get _ calls :=
    let answer := answers.characters (calls.filterMap Call.character?).length
    (answer, calls ++ [.get answer])
  random calls :=
    let byte := answers.bytes (calls.filterMap Call.byte?).length
    (byte, calls ++ [.random byte])
  log _ calls := calls
  report _ calls := calls
  sleep calls := (false, calls)
  trace _ calls := calls

/-- The answers in a list of calls are these. -/
structure Explains (answers : Answers) (calls : List Call) : Prop where
  characters : ∀ i answer, (calls.filterMap Call.character?)[i]? = some answer →
    answers.characters i = answer
  bytes : ∀ i byte, (calls.filterMap Call.byte?)[i]? = some byte → answers.bytes i = byte

variable {answers : Answers} {calls : List Call}

theorem Explains.host_get {answer : Option Char} (h : answers.Explains (calls ++ [.get answer]))
    (text : Option String) : answers.host.get text calls = (answer, calls ++ [.get answer]) := by
  have hanswer : answers.characters (calls.filterMap Call.character?).length = answer :=
    h.characters _ _ (by simp [Call.character?])
  simp only [host, hanswer]

theorem Explains.host_random {byte : UInt8} (h : answers.Explains (calls ++ [.random byte])) :
    answers.host.random calls = (byte, calls ++ [.random byte]) := by
  have hbyte : answers.bytes (calls.filterMap Call.byte?).length = byte :=
    h.bytes _ _ (by simp [Call.byte?])
  simp only [host, hbyte]

/-- What is answered to calls of one kind is a sequence if one of any two lists of calls goes on
from the other. -/
theorem exists_sequence {β : Type} [Inhabited β] {noted : List Call → Prop}
    (hchain : ∀ calls calls', noted calls → noted calls' → calls <+: calls' ∨ calls' <+: calls)
    (answer? : Call → Option β) :
    ∃ sequence : Nat → β, ∀ calls, noted calls → ∀ i answer,
      (calls.filterMap answer?)[i]? = some answer → sequence i = answer := by
  have hmore : ∀ {calls calls' : List Call} {i : Nat} {answer : β}, calls <+: calls' →
      (calls.filterMap answer?)[i]? = some answer →
      (calls'.filterMap answer?)[i]? = some answer := by
    rintro calls _ i answer ⟨more, rfl⟩ hanswer
    have hlt := (List.getElem?_eq_some_iff.mp hanswer).1
    rw [List.filterMap_append, List.getElem?_append_left hlt, hanswer]
  have hsame : ∀ i : Nat, ∃ fixed : β, ∀ calls, noted calls → ∀ answer,
      (calls.filterMap answer?)[i]? = some answer → fixed = answer := by
    intro i
    by_cases hsome : ∃ calls answer, noted calls ∧ (calls.filterMap answer?)[i]? = some answer
    · obtain ⟨calls, fixed, hnoted, hfixed⟩ := hsome
      refine ⟨fixed, fun calls' hnoted' answer hanswer => Option.some.inj ?_⟩
      -- Where two lists have an answer each, the longer one has both.
      rcases hchain calls calls' hnoted hnoted' with hprefix | hprefix
      · rw [← hanswer, hmore hprefix hfixed]
      · rw [← hfixed, hmore hprefix hanswer]
    · exact ⟨default, fun calls hnoted answer hanswer =>
        absurd ⟨calls, answer, hnoted, hanswer⟩ hsome⟩
  obtain ⟨sequence, hsequence⟩ := Classical.axiomOfChoice hsame
  exact ⟨sequence, fun calls hnoted i answer => hsequence i calls hnoted answer⟩

/-- Some answers explain all lists of calls of which one always goes on from the other. -/
theorem exists_explains {noted : List Call → Prop}
    (hchain : ∀ calls calls', noted calls → noted calls' → calls <+: calls' ∨ calls' <+: calls) :
    ∃ answers : Answers, ∀ calls, noted calls → answers.Explains calls := by
  obtain ⟨characters, hcharacters⟩ := exists_sequence hchain Call.character?
  obtain ⟨bytes, hbytes⟩ := exists_sequence hchain Call.byte?
  exact ⟨⟨characters, bytes⟩, fun calls hnoted =>
    ⟨hcharacters calls hnoted, hbytes calls hnoted⟩⟩

/-- Some answers explain a list of calls. -/
theorem exists_explaining (calls : List Call) : ∃ answers : Answers, answers.Explains calls := by
  obtain ⟨answers, hexplains⟩ := @exists_explains (· = calls)
    fun _ _ hleft hright => .inl (hleft.trans hright.symm ▸ List.prefix_rfl)
  exact ⟨answers, hexplains calls rfl⟩

end Answers

end LambdaMachine
