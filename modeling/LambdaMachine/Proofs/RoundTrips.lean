import LambdaMachine.Proofs.Forests
import LambdaMachine.Proofs.Numerals
import LambdaMachine.Proofs.Rereading
import LambdaMachine.Proofs.Sessions

/-!
# There and back with numerals

A number that is built as a numeral is read back as the same number, and the arena holds what it
held before (`WellFormed.exists_round_trip`). The machine does both with the bytes of a program:
what `get` and `random` leave, `put` reads (`numerals_round_trip`).
-/

namespace LambdaMachine

namespace Arena

variable {α : Type} {arena : Arena α}

/-- A numeral is built in new slots, and reading it gives back its number and these slots. -/
theorem WellFormed.exists_round_trip (hwf : arena.WellFormed) (n : UInt32) :
    ∃ layout built freed, arena.church n.toNat = (layout.root, built) ∧
      built.IsTree layout ∧ layout.term = .numeral n.toNat ∧
      arena.Exchange [] layout.refs built ∧
      Finishes (fun fuel => built.toNumber fuel layout.root) (some n.toNat, freed) ∧
      built.Exchange layout.refs [] freed := by
  obtain ⟨layout, built, hchurch, hterm, htree, hgrow⟩ := hwf.exists_church n.toNat
  have hclosed : layout.term.Closed := hterm ▸ Term.closed_numeral _
  have hcounts : layout.term.Counts (some n.toNat) :=
    hterm ▸ Term.counts_numeral (Tally.word_le_limit n)
  obtain ⟨freed, hread, hgone⟩ := htree.finishes_toNumber hclosed hcounts
  exact ⟨layout, built, freed, hchurch, htree, hterm, hgrow, hread, hgone⟩

/-- The tree that is built at the root of a numeral is that of its term. -/
theorem WellFormed.term_church (hwf : arena.WellFormed) {n : Nat} {layout : Layout α}
    (hholds : (arena.church n).2.Holds layout) (hroot : layout.root = (arena.church n).1) :
    layout.term = .numeral n := by
  obtain ⟨built, arena', hchurch, hterm, htree, _⟩ := hwf.exists_church n
  rw [hchurch] at hholds hroot
  rw [hholds.det htree.holds hroot, hterm]

end Arena

namespace Session

open Layout (Layer)

variable {σ : Type} {host : Host σ} {session : Session σ} {layers : List (Term.Layer Atom)}
  {atom : Atom} {byte : UInt8}

/-- The host gives this byte to a session that reduces the built-in. -/
inductive Produces (host : Host σ) (session : Session σ) : Atom → UInt8 → Prop where
  | get {byte splitter world}
      (hnext : Finishes (fun fuel => host.nextByte (fun _ => session.machine.listing fuel)
          session.machine.splitter
          (host.trace (.reducing (.leaf .get) session.machine.cursor.path) session.world))
        (some byte, splitter, world)) :
      Produces host session .get byte
  | random {byte world}
      (hdraw : host.random
          (host.trace (.reducing (.leaf .random) session.machine.cursor.path) session.world) =
        (byte, world)) :
      Produces host session .random byte

/-- An application of a leaf is at the position. -/
theorem Shows.exists_at_leaf {operand : Term Atom}
    (hshows : session.Shows (.going layers (.app (.leaf atom) operand))) :
    ∃ layers' node ref argument, layers'.map Layer.term = layers ∧ argument.term = operand ∧
      session.At layers' (.app node (.leaf ref atom) argument) := by
  obtain ⟨layers', redex, hat, hlayers, hterm⟩ := hshows
  obtain ⟨node, function, argument, rfl⟩ := Layout.exists_of_isApp hat.isApp
  obtain ⟨hfunction, hargument⟩ := Term.app.inj hterm
  obtain ⟨ref, rfl⟩ := Layout.exists_of_term_leaf hfunction
  exact ⟨layers', node, ref, argument, hlayers, hargument, hat⟩

/-- The byte that is produced is installed as its numeral. -/
theorem Produces.finishes_step (hproduces : session.Produces host atom byte)
    (hshows : session.Shows (.going layers (.app (.leaf atom) (.leaf .unit)))) :
    ∃ next, Finishes (fun fuel => session.step host fuel) (none, next) ∧
      next.Shows (.resume layers (.numeral byte.toNat)) := by
  obtain ⟨layers', node, ref, argument, rfl, hargument, hat⟩ := hshows.exists_at_leaf
  obtain ⟨ref', rfl⟩ := Layout.exists_of_term_leaf hargument
  have hread : session.machine.arena.read ref = .ok (.leaf atom) :=
    (hat.keeps.isTree.of_within layers').holds.2.1.read_root
  have htold : (session.telling host (.leaf ref atom)).At layers'
    (.app node (.leaf ref atom) (.leaf ref' .unit)) := hat
  have hunit : ∀ reduce, (session.telling host (.leaf ref atom)).withUnit ⟨node, ref, ref'⟩ reduce =
      reduce (session.telling host (.leaf ref atom)) := htold.withUnit_unit
  simp only [hat.step_ready host rfl rfl, Layout.root]
  cases hproduces with
  | @get _ splitter world hnext =>
      obtain ⟨next, hgive, _, _, hnumeral⟩ :=
        exists_giveByte hat host byte session.machine.assembler splitter world
      have hreduced : Finishes (fun fuel => (session.telling host (.leaf ref .get)).withUnit
          ⟨node, ref, ref'⟩ (getByte host fuel ⟨node, ref, ref'⟩)) (none, next) := by
        simp only [hunit]
        exact hnext.bind (.of_eq fun _ => hgive)
      exact ⟨next, .bind_ok hread hreduced, hnumeral⟩
  | @random _ world hdraw =>
      obtain ⟨next, hgive, _, _, hnumeral⟩ := exists_giveByte hat host byte
        session.machine.assembler session.machine.splitter world
      have hreduced : Finishes (fun _ => (session.telling host (.leaf ref .random)).withUnit
          ⟨node, ref, ref'⟩ (drawByte host ⟨node, ref, ref'⟩)) (none, next) := by
        have hdrawn : (session.telling host (.leaf ref .random)).drawByte host ⟨node, ref, ref'⟩ =
            giveByte host ⟨node, ref, ref'⟩ byte ⟨session.machine, world⟩ := by
          simp only [drawByte, telling, trace, Layout.node, hdraw]
        exact .of_eq fun _ => (hunit _).trans (hdrawn.trans hgive)
      exact ⟨next, .bind_ok hread hreduced, hnumeral⟩

/-- The numeral of a byte is put as this number. -/
theorem Shows.finishes_put
    (hshows : session.Shows (.going layers (.app (.leaf .put) (.numeral byte.toNat))))
    (host : Host σ) :
    ∃ next, Finishes (fun fuel => session.step host fuel) (none, next) ∧
      next.Shows (.resume layers (.leaf (.pending (some byte.toNat)))) := by
  obtain ⟨layers', node, ref, argument, rfl, hargument, hat⟩ := hshows.exists_at_leaf
  have hread : session.machine.arena.read ref = .ok (.leaf .put) :=
    (hat.keeps.isTree.of_within layers').holds.2.1.read_root
  have htold : (session.telling host (.leaf ref .put)).At layers'
    (.app node (.leaf ref .put) argument) := hat
  have hcounts : argument.term.Counts (some byte.toNat) := by
    rw [hargument]
    exact Term.counts_numeral (Tally.byte_le_limit byte)
  have hvalue : argument.term.isApp = false := by
    rw [hargument]
    rfl
  obtain ⟨⟨_, next⟩, htaken, _, _, rfl, hpending⟩ := htold.finishes_takeNumeral host hcounts
  refine ⟨next, ?_, hpending⟩
  simp only [hat.step_ready host rfl hvalue]
  exact .bind_ok hread htaken

end Session

/-- Whatever the arena holds, the numeral of a number is built as a tree of its term in new slots
and read as this number, and then the arena holds what it held before. Trees of one term are
built for one number only. In a program, the numeral that `get` or `random` leaves for a byte is
put as this byte. -/
theorem Arena.numerals_round_trip {α : Type} {arena : Arena α} (hwf : arena.WellFormed)
    (n : UInt32) :
    (∃ layout built freed, arena.church n.toNat = (layout.root, built) ∧ built.IsTree layout ∧
      layout.term = .lam (.lam (Nat.repeat (.app (.var 1)) n.toNat (.var 0))) ∧
      (layout.refs.length = 2 * n.toNat + 3 ∧ built.live = arena.live + (2 * n.toNat + 3) ∧
        arena.Exchange [] layout.refs built) ∧
      Finishes (fun fuel => built.toNumber fuel layout.root) (some n.toNat, freed) ∧
      (built.Exchange layout.refs [] freed ∧ freed.live = arena.live ∧
        ∀ ref, freed.node? ref = arena.node? ref)) ∧
    (∀ (arena' : Arena α) (n' : UInt32) (layout layout' : Layout α), arena'.WellFormed →
      (arena.church n.toNat).2.Holds layout → layout.root = (arena.church n.toNat).1 →
      (arena'.church n'.toNat).2.Holds layout' → layout'.root = (arena'.church n'.toNat).1 →
      layout.term = layout'.term → n = n') ∧
    ∀ {σ : Type} (host : Host σ) (session : Session σ) (layers : List (Term.Layer Atom))
      (byte : UInt8),
      (∀ atom, session.Produces host atom byte →
        session.Shows (.going layers (.app (.leaf atom) (.leaf .unit))) →
        ∃ next, Finishes (fun fuel => session.step host fuel) (none, next) ∧
          next.Shows (.resume layers (.numeral byte.toNat))) ∧
      (session.Shows (.going layers (.app (.leaf .put) (.numeral byte.toNat))) →
        ∃ next, Finishes (fun fuel => session.step host fuel) (none, next) ∧
          next.Shows (.resume layers (.leaf (.pending (some byte.toNat))))) := by
  refine ⟨?_, ?_, fun host session layers byte =>
    ⟨fun atom hproduces => hproduces.finishes_step, fun hshows => hshows.finishes_put host⟩⟩
  · obtain ⟨layout, built, freed, hchurch, htree, hterm, hgrow, hread, hgone⟩ :=
      hwf.exists_round_trip n
    have hsize : layout.term.size = 2 * n.toNat + 3 := by
      rw [hterm, Term.size_numeral]
    have hbuilt := hgrow.live_taken hwf htree
    have hfreed := hgone.live_freed (hgrow.wellFormed hwf) htree
    refine ⟨layout, built, freed, hchurch, htree, hterm, ⟨?_, ?_, hgrow⟩, hread, hgone, ?_, ?_⟩
    · rw [layout.length_refs, hsize]
    · rw [hbuilt, hsize]
    · omega
    · exact fun ref => (hgrow.trans hgone).same ref List.not_mem_nil List.not_mem_nil
  · intro arena' n' layout layout' hwf' hholds hroot hholds' hroot' hterm
    rw [hwf.term_church hholds hroot, hwf'.term_church hholds' hroot'] at hterm
    exact UInt32.toNat.inj (Term.numeral_injective hterm)

/-- A random byte is put by the program. -/
theorem isProgram_put_random : Source.IsProgram ",:,:::\"".toList
    (.app (.leaf .put) (.app (.leaf .random) (.leaf .unit))) :=
  @Arena.isProgram_plain_listing
    (.app 0 (.leaf 1 .put) (.app 2 (.leaf 3 .random) (.leaf 4 .unit)))
    (by simp [Layout.term, Term.Closed, Term.ClosedUnder])
    (by simp [Layout.term, Term.Writable])

/-- The one is built from five nodes and read back, and a random seven is put as seven. -/
theorem Arena.numerals_round_trip_one :
    (∃ root built freed, (Arena.empty : Program).church 1 = (root, built) ∧ built.live = 5 ∧
      Finishes (fun fuel => built.toNumber fuel root) (some 1, freed) ∧ freed.live = 0) ∧
    ∃ session first second last : Session (List Call),
      (⟨.empty, []⟩ : Session (List Call)).load (Answers.host ⟨fun _ => none, fun _ => 7⟩) 0
        ",:,:::\"" false = .ok (none, session) ∧
      Finishes (fun fuel => session.step (Answers.host ⟨fun _ => none, fun _ => 7⟩) fuel)
        (none, first) ∧
      Finishes (fun fuel => first.step (Answers.host ⟨fun _ => none, fun _ => 7⟩) fuel)
        (none, second) ∧
      Finishes (fun fuel => second.step (Answers.host ⟨fun _ => none, fun _ => 7⟩) fuel)
        (none, last) ∧
      last.Shows (.ended (.ok (.leaf (.pending (some 7))))) := by
  obtain ⟨⟨layout, built, freed, hchurch, _, _, ⟨_, hbuilt, _⟩, hread, _, hfreed, _⟩, _,
    hmachine⟩ := numerals_round_trip (wellFormed_empty (α := Atom)) 1
  refine ⟨⟨layout.root, built, freed, hchurch, hbuilt, hread, hfreed⟩, ?_⟩
  obtain ⟨session, node, left, right, hload, hat, hleft, hright⟩ :=
    Session.exists_load_app isProgram_put_random (Answers.host ⟨fun _ => none, fun _ => 7⟩)
      ⟨.empty, []⟩
  obtain ⟨⟨_, first⟩, hfirst, hmakes⟩ := hat.step_argument
    (Answers.host ⟨fun _ => none, fun _ => 7⟩) (by rw [hleft]; rfl) (by rw [hright]; rfl)
  obtain rfl : _ = none := hmakes.failure_eq
  have hgoing := hmakes.shows
  rw [hleft, hright] at hgoing
  obtain ⟨hinstalls, _⟩ := hmachine (Answers.host ⟨fun _ => none, fun _ => 7⟩) first
    [.argument (.leaf .put)] 7
  obtain ⟨second, hsecond, hnumeral⟩ := hinstalls .random (.random rfl) hgoing
  obtain ⟨_, hputs⟩ := hmachine (Answers.host ⟨fun _ => none, fun _ => 7⟩) second [] 7
  obtain ⟨last, hlast, hended⟩ := hputs hnumeral
  exact ⟨session, first, second, last, hload 0, hfirst, hsecond, hlast, hended⟩

end LambdaMachine
