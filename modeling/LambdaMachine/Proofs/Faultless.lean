import LambdaMachine.Proofs.Contracting
import LambdaMachine.Proofs.Edits
import LambdaMachine.Proofs.Reachable

/-!
# No broken invariant is ever met

A fault is a slot that is read, written or released without a node in it, a side that a
node lacks, or a redex that is no application. No call of a session ends in one, and none
is met in any step of a run (`faultless_of_reachable`). The two arms of a reduction that
stand for what cannot be are not taken either: the head of a redex is no variable, and
no marker of an operand that was no numeral.
-/

namespace LambdaMachine

open Layout (Layer within)

/-! ### Slots of new nodes -/

namespace Arena

variable {α : Type} {arena : Arena α}

/-- The slot of the next node is one that there is, and it is empty before. -/
def Roomy (arena : Arena α) : Prop :=
  ∀ node, arena.node? (arena.alloc node).1 = none ∧
    (arena.alloc node).2.node? (arena.alloc node).1 = some node

theorem WellFormed.roomy (hwf : arena.WellFormed) : arena.Roomy := by
  intro node
  refine ⟨hwf.node?_alloc_fst node, ?_⟩
  rw [hwf.node?_alloc, if_pos rfl]

end Arena

namespace Session

variable {σ : Type}

/-! ### Refused reductions -/

/-- The next step reduces this redex, with this head. -/
structure Reduces (session : Session σ) (redex : Redex) (head : Node Atom) : Prop where
  redex_eq : session.machine.cursor.redex = some redex.node
  focus_eq : session.machine.arena.focus redex.node = .ok (.ready redex.function redex.argument)
  read_eq : session.machine.arena.read redex.function = .ok head

/-- Which heads a reduction can be refused at, and why. Every machine is meant here, also
one that no program leads to. -/
inductive Refuses (machine : Machine) : Node Atom → Failure → Prop where
  | notANumeral : Refuses machine (.leaf .put) .notANumeral
  | notNull {atom} (hatom : atom.takesUnit = true) : Refuses machine (.leaf atom) .notNull
  | invalidUtf8 {number}
      (hpush : ∀ n, number = some n → machine.assembler.push n = .refused) :
      Refuses machine (.leaf (.pending number)) .invalidUtf8
  | aborted : Refuses machine (.leaf .get) .aborted
  | notAFunction {head} (hlam : ∀ body, head ≠ .lam body)
      (hleaf : ∀ atom, head = .leaf atom → atom = .unit) : Refuses machine head .notAFunction

/-- The program and the place where it is reduced have stayed as they were. -/
structure Stays (session last : Session σ) : Prop where
  arena_eq : last.machine.arena = session.machine.arena
  cursor_eq : last.machine.cursor = session.machine.cursor

variable {host : Host σ} {session last : Session σ} {redex : Redex} {head : Node Atom}
  {fuel : Nat} {failure : Failure} {outcome : Outcome σ}

theorem not_refused_of_giveByte {byte : UInt8}
    (hgive : session.giveByte host redex byte = .ok outcome) : outcome.1 = none := by
  obtain ⟨_, _, hgive⟩ := bind_eq_ok_iff.mp hgive
  obtain ⟨_, _, heq⟩ := bind_eq_ok_iff.mp hgive
  cases heq
  rfl

theorem not_refused_of_drawByte (hdraw : session.drawByte host redex = .ok outcome) :
    outcome.1 = none := by
  have hgive : giveByte host redex (host.random session.world).1
      ⟨session.machine, (host.random session.world).2⟩ = .ok outcome := hdraw
  exact not_refused_of_giveByte hgive

theorem refused_of_takeNumeral (htake : session.takeNumeral host fuel redex = .ok outcome)
    (hfailure : outcome.1 = some failure) : failure = .notANumeral := by
  obtain ⟨⟨number, arena⟩, _, htake⟩ := bind_eq_ok_iff.mp htake
  obtain ⟨_, _, htake⟩ := bind_eq_ok_iff.mp htake
  obtain ⟨_, _, htake⟩ := bind_eq_ok_iff.mp htake
  cases number with
  | some number =>
      obtain ⟨_, _, heq⟩ := bind_eq_ok_iff.mp htake
      cases heq
      cases hfailure
  | none =>
      obtain ⟨_, _, heq⟩ := bind_eq_ok_iff.mp htake
      cases heq
      exact (Option.some.inj hfailure).symm

theorem refused_of_putByte {number : Option Nat}
    (hput : session.putByte host redex number = .ok outcome) (hfailure : outcome.1 = some failure) :
    failure = .invalidUtf8 ∧ session.Stays outcome.2 ∧
      ∀ n, number = some n → session.machine.assembler.push n = .refused := by
  cases number with
  | none =>
      cases hput
      exact ⟨(Option.some.inj hfailure).symm, ⟨rfl, rfl⟩, fun n hn => nomatch hn⟩
  | some n =>
      unfold putByte at hput
      cases hpush : session.machine.assembler.push n with
      | refused =>
          simp only [Option.map_some, hpush] at hput
          cases hput
          refine ⟨(Option.some.inj hfailure).symm, ⟨rfl, rfl⟩, fun n' hn => ?_⟩
          cases hn
          exact hpush
      | _ =>
          simp only [Option.map_some, hpush] at hput
          obtain ⟨_, _, hput⟩ := bind_eq_ok_iff.mp hput
          obtain ⟨_, _, heq⟩ := bind_eq_ok_iff.mp hput
          cases heq
          cases hfailure

theorem refused_of_getByte (hget : session.getByte host fuel redex = .ok outcome)
    (hfailure : outcome.1 = some failure) : failure = .aborted ∧ session.Stays outcome.2 := by
  obtain ⟨⟨byte, splitter, world⟩, _, hget⟩ := bind_eq_ok_iff.mp hget
  cases byte with
  | none =>
      cases hget
      exact ⟨(Option.some.inj hfailure).symm, rfl, rfl⟩
  | some byte =>
      rw [not_refused_of_giveByte hget] at hfailure
      cases hfailure

theorem refused_of_withUnit {reduce : Session σ → Except Fault (Outcome σ)}
    (hwith : session.withUnit redex reduce = .ok outcome) (hfailure : outcome.1 = some failure) :
    failure = .notNull ∧ session.Stays outcome.2 ∨ reduce session = .ok outcome := by
  unfold withUnit at hwith
  obtain ⟨node, _, hwith⟩ := bind_eq_ok_iff.mp hwith
  split at hwith
  · exact .inr hwith
  · cases hwith
    exact .inl ⟨(Option.some.inj hfailure).symm, rfl, rfl⟩

/-- A reduction is refused only at the heads where it can be, and nothing has changed then unless
its operand was no numeral. -/
theorem refuses_of_reduce (hread : session.machine.arena.read redex.function = .ok head)
    (hreduce : session.reduce host fuel redex = .ok outcome) (hfailure : outcome.1 = some failure) :
    Refuses session.machine head failure ∧
      (failure ≠ .notANumeral → session.Stays outcome.2) := by
  simp only [reduce, hread, bind, Except.bind] at hreduce
  cases head with
  | lam body =>
      obtain ⟨_, _, heq⟩ := bind_eq_ok_iff.mp hreduce
      cases heq
      cases hfailure
  | app function argument =>
      cases hreduce
      cases hfailure
      exact ⟨.notAFunction (by simp) (by simp), fun _ => ⟨rfl, rfl⟩⟩
  | var index =>
      cases hreduce
      cases hfailure
      exact ⟨.notAFunction (by simp) (by simp), fun _ => ⟨rfl, rfl⟩⟩
  | leaf atom =>
      cases atom with
      | unit =>
          cases hreduce
          cases hfailure
          exact ⟨.notAFunction (by simp) (by simp [eq_comm]), fun _ => ⟨rfl, rfl⟩⟩
      | put =>
          obtain rfl := refused_of_takeNumeral hreduce hfailure
          exact ⟨.notANumeral, fun hne => absurd rfl hne⟩
      | pending number =>
          rcases refused_of_withUnit hreduce hfailure with ⟨rfl, harena, hcursor⟩ | hput
          · exact ⟨.notNull rfl, fun _ => ⟨harena, hcursor⟩⟩
          · obtain ⟨rfl, ⟨harena, hcursor⟩, hpush⟩ := refused_of_putByte hput hfailure
            exact ⟨.invalidUtf8 hpush, fun _ => ⟨harena, hcursor⟩⟩
      | get =>
          rcases refused_of_withUnit hreduce hfailure with ⟨rfl, harena, hcursor⟩ | hget
          · exact ⟨.notNull rfl, fun _ => ⟨harena, hcursor⟩⟩
          · obtain ⟨rfl, harena, hcursor⟩ := refused_of_getByte hget hfailure
            exact ⟨.aborted, fun _ => ⟨harena, hcursor⟩⟩
      | random =>
          rcases refused_of_withUnit hreduce hfailure with ⟨rfl, harena, hcursor⟩ | hdraw
          · exact ⟨.notNull rfl, fun _ => ⟨harena, hcursor⟩⟩
          · rw [not_refused_of_drawByte hdraw] at hfailure
            cases hfailure

/-- A step that is refused reduces a redex, at a head where that can be. Nothing has changed then
unless the operand was no numeral. -/
theorem exists_reduces_of_step (hstep : session.step host fuel = .ok outcome)
    (hfailure : outcome.1 = some failure) :
    ∃ redex head, session.Reduces redex head ∧ Refuses session.machine head failure ∧
      (failure ≠ .notANumeral → session.Stays outcome.2) := by
  unfold step at hstep
  cases hredex : session.machine.cursor.redex with
  | none =>
      rw [hredex] at hstep
      cases hstep
      cases hfailure
  | some node =>
      rw [hredex] at hstep
      obtain ⟨focus, hfocus, hstep⟩ := bind_eq_ok_iff.mp hstep
      cases focus with
      | inner side ref =>
          cases hstep
          cases hfailure
      | ready function argument =>
          obtain ⟨head, hread, _⟩ := bind_eq_ok_iff.mp hstep
          exact ⟨⟨node, function, argument⟩, head, ⟨hredex, hfocus, hread⟩,
            refuses_of_reduce hread hstep hfailure⟩

/-! ### Heads of redexes -/

/-- What is reduced next is the redex of the layout, and its parts are no applications. -/
theorem At.exists_of_focus {layers : List (Layer Atom)} {layout : Layout Atom}
    (hat : session.At layers layout) {node function argument : Ref}
    (hredex : session.machine.cursor.redex = some node)
    (hfocus : session.machine.arena.focus node = .ok (.ready function argument)) :
    ∃ left right, layout = .app node left right ∧ left.root = function ∧ right.root = argument ∧
      left.term.isApp = false ∧ right.term.isApp = false := by
  obtain ⟨ref, left, right, rfl⟩ := Layout.exists_of_isApp hat.isApp
  obtain rfl : ref = node := Option.some.inj (hat.redex_eq.symm.trans hredex)
  have hholds := (hat.keeps.isTree.of_within layers).holds
  cases happ : left.term.isApp with
  | true =>
      rw [hholds.focus_function happ] at hfocus
      cases hfocus
  | false =>
      cases happ' : right.term.isApp with
      | true =>
          rw [hholds.focus_argument happ happ'] at hfocus
          cases hfocus
      | false =>
          rw [hholds.focus_ready happ happ'] at hfocus
          cases hfocus
          exact ⟨left, right, rfl, rfl, rfl, happ, happ'⟩

/-- The head of a redex is a value, no variable and no marker of a failed output. -/
theorem head_of_settled (h : session.machine.Settled) {node function argument : Ref}
    (hredex : session.machine.cursor.redex = some node)
    (hfocus : session.machine.arena.focus node = .ok (.ready function argument)) :
    ∃ head, session.machine.arena.read function = .ok head ∧ head.isApp = false ∧
      (∀ index, head ≠ .var index) ∧ head ≠ .leaf (.pending none) := by
  rcases h.ended_or_at with hnone | ⟨layers, redex, hat⟩
  · rw [hnone] at hredex
    cases hredex
  · obtain ⟨left, right, rfl, rfl, rfl, happ, _⟩ := At.exists_of_focus hat hredex hfocus
    have hholds := (hat.keeps.isTree.of_within layers).holds
    obtain ⟨⟨⟨hclosed, hunmarked⟩, _⟩, _⟩ := hat.sound.imp_left Term.sound_app.mp
    refine ⟨left.node, hholds.2.1.read_root, left.isApp_node.trans happ, ?_, ?_⟩
    · rintro index heq
      cases left with
      | var ref index => exact absurd hclosed (Nat.not_lt_zero _)
      | _ => cases heq
    · intro heq
      cases left with
      | leaf ref atom =>
          cases heq
          exact hunmarked rfl
      | _ => cases heq

/-! ### Sessions -/

/-- The next step of a session meets no fault, and what it reduces has a head that can be
reduced or is the unit. -/
structure Faultless (host : Host σ) (session : Session σ) : Prop where
  /-- The step ends in no fault, apart from being cut off. -/
  unbroken : ∀ fuel, Unbroken (session.step host fuel)
  /-- Whatever has been done to single slots, the next node goes to an empty slot. -/
  roomy : ∀ arena, session.machine.arena.Edits arena → arena.Roomy
  /-- So it does in the arena that an operand of `put` is counted in. -/
  roomy_scratch : ∀ arena : Arena Tally, Arena.empty.Edits arena → arena.Roomy
  /-- The head of a redex is a value, no variable and no marker of a failed output. -/
  head : ∀ node function argument, session.machine.cursor.redex = some node →
    session.machine.arena.focus node = .ok (.ready function argument) →
    ∃ head, session.machine.arena.read function = .ok head ∧ head.isApp = false ∧
      (∀ index, head ≠ .var index) ∧ head ≠ .leaf (.pending none)
  /-- Only the unit is refused as a function. -/
  notAFunction : ∀ fuel last, session.step host fuel = .ok (some .notAFunction, last) →
    ∃ redex, session.Reduces redex (.leaf .unit)
  /-- Only a number that cannot come next is refused as UTF-8. -/
  invalidUtf8 : ∀ fuel last, session.step host fuel = .ok (some .invalidUtf8, last) →
    ∃ redex number, session.Reduces redex (.leaf (.pending (some number))) ∧
      session.machine.assembler.push number = .refused

theorem faultless_of_settled (h : session.machine.Settled) (host : Host σ) :
    session.Faultless host where
  unbroken := step_unbroken h host
  roomy arena hedits := (h.intact.wellFormed.of_edits hedits).roomy
  roomy_scratch arena hedits := (Arena.wellFormed_empty.of_edits hedits).roomy
  head _ _ _ hredex hfocus := head_of_settled h hredex hfocus
  notAFunction fuel last hstep := by
    obtain ⟨redex, head, hreduces, hrefuses, _⟩ := exists_reduces_of_step hstep rfl
    obtain ⟨head', hread, happ, hvar, _⟩ :=
      head_of_settled h hreduces.redex_eq hreduces.focus_eq
    obtain rfl := Except.ok.inj (hreduces.read_eq.symm.trans hread)
    cases hrefuses with
    | notAFunction hlam hleaf =>
        cases head with
        | lam body => exact absurd rfl (hlam body)
        | app function argument => cases happ
        | var index => exact absurd rfl (hvar index)
        | leaf atom =>
            obtain rfl := hleaf atom rfl
            exact ⟨redex, hreduces⟩
  invalidUtf8 fuel last hstep := by
    obtain ⟨redex, head, hreduces, hrefuses, _⟩ := exists_reduces_of_step hstep rfl
    obtain ⟨head', hread, _, _, hmarker⟩ :=
      head_of_settled h hreduces.redex_eq hreduces.focus_eq
    obtain rfl := Except.ok.inj (hreduces.read_eq.symm.trans hread)
    cases hrefuses with
    | @invalidUtf8 number hpush =>
        cases number with
        | none => exact absurd rfl hmarker
        | some number => exact ⟨redex, number, hreduces, hpush number rfl⟩

theorem listing_unbroken (h : session.machine.Settled) (fuel : Nat) :
    Unbroken (session.machine.listing fuel) := by
  obtain ⟨text, hlisting⟩ := h.listable
  exact hlisting.unbroken (fun hfuel => Arena.listing_mono hfuel _ _ _) fuel

/-- What a run fails with, a step of it was refused with, unless the host asked to stop. -/
theorem exists_step_of_run {budget : Option Nat} {log : Bool}
    (hrun : session.run host fuel budget log = .ok (some failure, last))
    (hfailure : failure ≠ .aborted) :
    ∃ reached fuel stopped, Drives host (budget, session) reached ∧
      reached.2.step host fuel = .ok (some failure, stopped) := by
  obtain ⟨stopped, hdrive, _⟩ := run_eq_ok hrun
  obtain ⟨reached, hdrives, hstops⟩ := exists_stops hdrive
  cases hstops with
  | refused _ hstep => exact ⟨reached, _, _, hdrives, hstep⟩
  | aborted _ _ hpause => exact absurd (pause_failed hpause).1 hfailure

/-- No call of a session meets a fault, whatever the texts, the budgets and the answers of the
host are: neither loading nor running nor listing ends in one, and before every step of a run
the next one meets none. A run is refused for want of a function only where the head is the
unit, and for its output only where there is a number that cannot come next. -/
theorem faultless_of_reachable (h : Reachable host session) :
    (∀ fuel text log, Unbroken (session.load host fuel text log)) ∧
    (∀ fuel budget log, Unbroken (session.run host fuel budget log)) ∧
    ((∃ text, Finishes (fun fuel => session.machine.listing fuel) text) ∧
      ∀ fuel, Unbroken (session.machine.listing fuel)) ∧
    (∀ budget reached, Drives host (budget, session) reached → reached.2.Faultless host) ∧
    (∀ fuel budget log last, session.run host fuel budget log = .ok (some .notAFunction, last) →
      ∃ reached redex, Drives host (budget, session) reached ∧
        reached.2.Reduces redex (.leaf .unit)) ∧
    ∀ fuel budget log last, session.run host fuel budget log = .ok (some .invalidUtf8, last) →
      ∃ reached redex number, Drives host (budget, session) reached ∧
        reached.2.Reduces redex (.leaf (.pending (some number))) ∧
        reached.2.machine.assembler.push number = .refused := by
  have hsettled := h.settled
  have hfaultless : ∀ budget reached, Drives host (budget, session) reached →
      reached.2.Faultless host :=
    fun budget reached hdrives => faultless_of_settled (hdrives.settled hsettled) host
  refine ⟨fun fuel text log => load_unbroken host fuel text log session,
    fun fuel budget log => run_unbroken hsettled host fuel budget log,
    ⟨hsettled.listable, listing_unbroken hsettled⟩, hfaultless,
    fun fuel budget log last hrun => ?_, fun fuel budget log last hrun => ?_⟩
  · obtain ⟨reached, fuel, stopped, hdrives, hstep⟩ := exists_step_of_run hrun (by simp)
    obtain ⟨redex, hreduces⟩ :=
      (hfaultless budget reached hdrives).notAFunction fuel stopped hstep
    exact ⟨reached, redex, hdrives, hreduces⟩
  · obtain ⟨reached, fuel, stopped, hdrives, hstep⟩ := exists_step_of_run hrun (by simp)
    obtain ⟨redex, number, hreduces, hpush⟩ :=
      (hfaultless budget reached hdrives).invalidUtf8 fuel stopped hstep
    exact ⟨reached, redex, number, hdrives, hreduces, hpush⟩

/-- An abstraction applied to the unit is loaded, and its first step meets no fault. -/
theorem faultless_loaded : ∃ next, (⟨.empty, []⟩ : Session (List Call)).load
    (Answers.host ⟨fun _ => none, fun _ => 0⟩) 0 ",'.\"" false = .ok (none, next) ∧
      next.Faultless (Answers.host ⟨fun _ => none, fun _ => 0⟩) := by
  obtain ⟨next, _, _, _, _, hload, _⟩ := exists_load_identity_unit
    (Answers.host ⟨fun _ => none, fun _ => 0⟩) ⟨.empty, []⟩
  exact ⟨next, hload 0, (faultless_of_reachable (.load .new (hload 0))).2.2.2.1 none _ .refl⟩

end Session

end LambdaMachine
