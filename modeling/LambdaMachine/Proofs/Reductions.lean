import LambdaMachine.Machine.Fuel
import LambdaMachine.Proofs.Calls
import LambdaMachine.Proofs.Counting
import LambdaMachine.Proofs.Listing
import LambdaMachine.Proofs.Positions

/-!
# Reductions

What each kind of redex is reduced to. Every reduction builds a tree in place of the redex
from its slots and leaves the machine where the evaluation goes on, and it makes the calls
and changes to the unfinished characters that the evaluation makes under the same answers.
-/

namespace LambdaMachine

open Layout (Layer within)

variable {σ : Type}

namespace Session

/-- What the built-ins act on, in another world. -/
def around {τ : Type} (session : Session σ) (world : τ) : Surroundings τ :=
  ⟨session.machine.assembler, session.machine.splitter, world⟩

/-- The machine stands where an evaluation is at this stage. -/
def Shows (session : Session σ) (stage : Term.Stage Atom Failure) : Prop :=
  session.machine.cursor.Shows session.machine.arena stage

variable {session next : Session σ} {layers : List (Layer Atom)} {redex result : Layout Atom}
  {arena₁ : Program}

/-- The machine stands at a redex inside layers. -/
def At (session : Session σ) (layers : List (Layer Atom)) (redex : Layout Atom) : Prop :=
  session.machine.cursor.At session.machine.arena layers redex

/-- A value is installed in the place of the redex that it was built from. -/
theorem exists_install {arena : Program} {cursor : Cursor} (hat : cursor.At arena layers redex)
    (hexchange : arena.Exchange redex.refs result.refs arena₁) (hresult : arena₁.IsTree result)
    (hsound : result.term.Sound) (hvalue : result.term.isApp = false) (host : Host σ)
    (assembler : Utf8.Assembler) (splitter : Utf8.Splitter) (world : σ) :
    ∃ next, install host result.root ⟨⟨arena₁, cursor, assembler, splitter⟩, world⟩ = .ok next ∧
      host.Performs [] world next.world ∧
      (∀ notes : List Call, next.around notes = ⟨assembler, splitter, notes⟩) ∧
      next.Shows (.resume (layers.map Layer.term) result.term) := by
  obtain ⟨arena₂, root, hreplace, hcontains⟩ := hat.exists_replace hexchange hresult
  have hkeeps := hat.keeps_of_contains hcontains hsound
  refine ⟨⟨⟨arena₂, ({ cursor with root } : Cursor).up, assembler, splitter⟩,
    if ({ cursor with root } : Cursor).up.redex.isNone then host.trace (.halted arena₂.live) world
    else world⟩, ?_, ?_, fun _ => rfl, hat.shows_up hkeeps hvalue⟩
  · simp only [install, hreplace, bind, Except.bind, pure, Except.pure]
  · dsimp only
    split
    · exact .trace .nil
    · exact .nil

/-! ### Contraction -/

/-- An abstraction is contracted. -/
theorem At.finishes_contract {node ref : Ref} {body operand : Layout Atom}
    (hat : session.At layers (.app node (.lam ref body) operand)) (host : Host σ) :
    ∃ next, Finishes (fun fuel => session.contract host fuel ⟨node, ref, operand.root⟩) next ∧
      host.Performs [] session.world next.world ∧
      (∀ notes : List Call, next.around notes = session.around notes) ∧
      next.Shows (.enter (layers.map Layer.term) (body.term.contract operand.term)) := by
  obtain ⟨⟨arena, cursor, assembler, splitter⟩, world⟩ := session
  obtain ⟨⟨hbody, hoperand⟩, _⟩ := hat.sound.imp_left Term.sound_app.mp
  have htree := hat.keeps.isTree.of_within layers
  obtain ⟨hnode, ⟨hnotf, hnota⟩, hdisjoint, hfunction, hargument⟩ := Arena.isTree_app.mp htree
  obtain ⟨result, arena₁, hterm, hbeta, hresult, hexchange⟩ :=
    hfunction.finishes_beta hat.keeps.wellFormed hargument (List.disjoint_symm hdisjoint)
  have hsome : (arena.node? node).isSome := by simp [hnode]
  have hnot : node ∉ ref :: (body.refs ++ operand.refs) := by
    simp only [Layout.refs, List.mem_cons, List.mem_append, not_or] at hnotf ⊢
    exact ⟨hnotf.1, hnotf.2, hnota⟩
  have hsome₁ : (arena₁.node? node).isSome := by rwa [hexchange.node?_eq hsome hnot]
  obtain ⟨arena₂, hrelease, hgone⟩ := Arena.exists_release hsome₁
  have hresult₂ := hgone.isTree hresult
    (List.disjoint_singleton.mpr (hexchange.not_mem_new hsome hnot))
  have hfoot : arena.Exchange (Layout.app node (.lam ref body) operand).refs result.refs arena₂ :=
    (hexchange.cons node).trans (hgone.frame result.refs)
  have hreplaced : result.term = body.term.contract operand.term :=
    hterm.trans (Term.replace_eq_subst hoperand.1 hbody.1)
  have hsound : result.term.Sound := hreplaced ▸ hbody.contract hoperand
  have hisApp := hresult₂.holds.isApp_root
  rw [← hreplaced]
  -- A contractum that is an application is the next redex in this place. A value is installed.
  cases happ : result.term.isApp with
  | true =>
      obtain ⟨arena₃, root, hreplace, hcontains⟩ := hat.exists_replace hfoot hresult₂
      have hkeeps := hat.keeps_of_contains hcontains hsound
      refine ⟨⟨⟨arena₃, { cursor with root, redex := some result.root }, assembler, splitter⟩,
        world⟩, ?_, .nil, fun _ => rfl, ?_⟩
      · refine hbeta.bind (.bind_ok hrelease (.bind_ok hisApp ?_))
        simp only [happ, if_true]
        exact .bind_ok hreplace (.pure _)
      · rw [Term.Stage.enter_of_isApp happ]
        exact ⟨layers, result, ⟨hkeeps, rfl, hat.path_eq, happ, hat.waiting⟩, rfl, rfl⟩
  | false =>
      obtain ⟨next, hinstall, hperforms, haround, hshows⟩ :=
        exists_install hat hfoot hresult₂ hsound happ host assembler splitter world
      refine ⟨next, ?_, hperforms, haround, ?_⟩
      · refine hbeta.bind (.bind_ok hrelease (.bind_ok hisApp ?_))
        simp only [happ]
        exact .of_eq fun _ => hinstall
      · rwa [Term.Stage.enter_of_value happ]

/-! ### Output -/

/-- The slots of an application of a leaf can be released when its argument is gone. -/
theorem exists_release_pair {arena arena₁ : Program} {node ref : Ref} {atom : Atom}
    {operand : Layout Atom} (htree : arena.IsTree (.app node (.leaf ref atom) operand))
    (hgone : arena.Exchange operand.refs [] arena₁) :
    ∃ arena₂ arena₃, arena₁.release ref = .ok arena₂ ∧ arena₂.release node = .ok arena₃ ∧
      arena.Exchange (Layout.app node (.leaf ref atom) operand).refs [] arena₃ := by
  obtain ⟨hnode, ⟨hnotf, hnota⟩, hdisjoint, hfunction, _⟩ := Arena.isTree_app.mp htree
  have hnotref : ref ∉ operand.refs := fun hmem => hdisjoint List.mem_cons_self hmem
  have hne : node ≠ ref := by simpa [Layout.refs] using hnotf
  have hsome : (arena.node? ref).isSome := hfunction.holds.isSome_of_mem List.mem_cons_self
  have hsome₁ : (arena₁.node? ref).isSome := by rwa [hgone.node?_eq hsome hnotref]
  obtain ⟨arena₂, hrelease, hgone'⟩ := Arena.exists_release hsome₁
  have hsome' : (arena.node? node).isSome := by simp [hnode]
  have hsome₂ : (arena₂.node? node).isSome := by
    rw [hgone'.node?_eq _ (by simpa using hne), hgone.node?_eq hsome' hnota, hnode]
    · rfl
    · rw [hgone.node?_eq hsome' hnota, hnode]
      rfl
  obtain ⟨arena₃, hrelease', hgone''⟩ := Arena.exists_release hsome₂
  refine ⟨arena₂, arena₃, hrelease, hrelease', ?_⟩
  have hall := ((hgone.frame [ref, node]).trans (hgone'.frame [node])).trans hgone''
  exact hall.of_mem_iff (by simp [Layout.refs]; tauto) fun _ => Iff.rfl

/-- The operand of an output was no numeral: a marker stands in the place of the redex, inside
these layers, and there is no redex any more. -/
def Marks (session : Session σ) (layers : List (Term.Layer Atom)) : Prop :=
  ∃ whole, session.machine.arena.Holds whole ∧ session.machine.cursor.root = some whole.root ∧
    session.machine.cursor.redex = none ∧
    whole.term = Term.within layers (.leaf (.pending none))

theorem Marks.shows {layers : List (Term.Layer Atom)} (h : session.Marks layers)
    (failure : Failure) : session.Shows (.ended (.error failure)) := by
  obtain ⟨whole, hholds, hroot, _⟩ := h
  exact ⟨whole, hholds, hroot⟩

/-- The operand of an output is read as a number, or is marked if it is none. -/
theorem At.finishes_takeNumeral {node ref : Ref} {operand : Layout Atom} {number : Option Nat}
    (hat : session.At layers (.app node (.leaf ref .put) operand)) (host : Host σ)
    (hcounts : operand.term.Counts number) :
    ∃ outcome, Finishes (fun fuel => session.takeNumeral host fuel ⟨node, ref, operand.root⟩)
        outcome ∧
      host.Performs [] session.world outcome.2.world ∧
      (∀ notes : List Call, outcome.2.around notes = session.around notes) ∧
      match number with
      | some n => outcome.1 = none ∧
          outcome.2.Shows (.resume (layers.map Layer.term) (.leaf (.pending (some n))))
      | none => outcome.1 = some .notANumeral ∧ outcome.2.Marks (layers.map Layer.term) := by
  obtain ⟨⟨arena, cursor, assembler, splitter⟩, world⟩ := session
  obtain ⟨⟨_, hoperand⟩, _⟩ := hat.sound.imp_left Term.sound_app.mp
  have htree := hat.keeps.isTree.of_within layers
  obtain ⟨_, _, _, _, hargument⟩ := Arena.isTree_app.mp htree
  obtain ⟨arena₁, htoNumber, hgone⟩ := hargument.finishes_toNumber hoperand.1 hcounts
  obtain ⟨arena₂, arena₃, hrelease, hrelease', hgone'⟩ := exists_release_pair htree hgone
  obtain ⟨result, arena₄, halloc, hresult, hgrow⟩ :=
    (hgone'.wellFormed hat.keeps.wellFormed).exists_alloc_leaf (Atom.pending number)
  have hfoot : arena.Exchange (Layout.app node (.leaf ref .put) operand).refs
      (Layout.leaf result (Atom.pending number)).refs arena₄ := hgone'.trans hgrow
  -- Without a number the marker is put in place too, but there is no redex any more.
  cases number with
  | some n =>
      obtain ⟨next, hinstall, hperforms, haround, hshows⟩ := exists_install hat hfoot hresult
        (Term.sound_leaf (by simp)) rfl host assembler splitter world
      refine ⟨(none, next), ?_, hperforms, haround, rfl, hshows⟩
      refine htoNumber.bind (.bind_ok hrelease (.bind_ok hrelease' ?_))
      simp only [halloc, Option.isSome_some, if_true]
      exact .bind_ok hinstall (.pure _)
  | none =>
      obtain ⟨arena₅, root, hreplace, hcontains⟩ := hat.exists_replace hfoot hresult
      refine ⟨(some .notANumeral, ⟨⟨arena₅,
        { ({ cursor with root } : Cursor).up with redex := none }, assembler, splitter⟩, world⟩),
        ?_, .nil, fun _ => rfl, rfl, _, hcontains.isTree.holds, ?_, rfl, Layout.term_within _ _⟩
      · refine htoNumber.bind (.bind_ok hrelease (.bind_ok hrelease' ?_))
        simp only [halloc, Option.isSome_none]
        exact .bind_ok hreplace (.pure _)
      · rw [← hcontains.root_eq]
        simp only [Cursor.up]
        split <;> rfl

/-! ### Built-ins that take the unit -/

theorem exists_releaseRedex {arena : Program} {node ref ref' : Ref} {atom atom' : Atom}
    (htree : arena.IsTree (.app node (.leaf ref atom) (.leaf ref' atom'))) :
    ∃ arena₁, arena.releaseRedex ⟨node, ref, ref'⟩ = .ok arena₁ ∧
      arena.Exchange (Layout.app node (.leaf ref atom) (.leaf ref' atom')).refs [] arena₁ := by
  obtain ⟨_, _, _, _, hargument⟩ := Arena.isTree_app.mp htree
  obtain ⟨arena₁, hrelease, hgone⟩ :=
    Arena.exists_release (hargument.holds.isSome_of_mem List.mem_cons_self)
  obtain ⟨arena₂, arena₃, hrelease', hrelease'', hgone'⟩ := exists_release_pair htree hgone
  refine ⟨arena₃, ?_, hgone'⟩
  simp only [Arena.releaseRedex, hrelease, hrelease', hrelease'', bind, Except.bind]

/-- After a failure the program can be listed. -/
theorem At.shows_error (hat : session.At layers redex) (failure : Failure) :
    session.Shows (.ended (.error failure)) :=
  ⟨_, hat.keeps.isTree.holds, hat.keeps.root_eq⟩

/-- A reduction that is not a contraction does what the rule says, under any answers that
explain its calls. -/
def Yields (host : Host σ) (session : Session σ) (layers : List (Term.Layer Atom))
    (head operand : Term Atom) (outcome : Outcome σ) : Prop :=
  ∃ calls result, host.Performs calls session.world outcome.2.world ∧
    outcome.1 = Term.Stage.failure? (.finish layers result : Term.Stage Atom Failure) ∧
    outcome.2.Shows (.finish layers result) ∧
    ∀ (answers : Answers) notes, answers.Explains (notes ++ calls) →
      Atom.Rule answers.host (session.around notes) head operand result
        (outcome.2.around (notes ++ calls))

/-- The unit is built in the place of a redex that is used up. -/
theorem exists_install_unit {arena : Program} {cursor : Cursor} {node ref ref' : Ref} {atom : Atom}
    (hat : cursor.At arena layers (.app node (.leaf ref atom) (.leaf ref' .unit))) (host : Host σ)
    (assembler : Utf8.Assembler) (splitter : Utf8.Splitter) (world : σ) :
    ∃ arena₁ arena₂ unit next, arena.releaseRedex ⟨node, ref, ref'⟩ = .ok arena₁ ∧
      arena₁.alloc (.leaf .unit) = (unit, arena₂) ∧
      install host unit ⟨⟨arena₂, cursor, assembler, splitter⟩, world⟩ = .ok next ∧
      host.Performs [] world next.world ∧
      (∀ notes : List Call, next.around notes = ⟨assembler, splitter, notes⟩) ∧
      next.Shows (.resume (layers.map Layer.term) (.leaf .unit)) := by
  obtain ⟨arena₁, hrelease, hgone⟩ := exists_releaseRedex (hat.keeps.isTree.of_within layers)
  obtain ⟨unit, arena₂, halloc, hunit, hgrow⟩ :=
    (hgone.wellFormed hat.keeps.wellFormed).exists_alloc_leaf Atom.unit
  have hfoot : arena.Exchange (Layout.app node (.leaf ref atom) (.leaf ref' .unit)).refs
      (Layout.leaf unit Atom.unit).refs arena₂ := hgone.trans hgrow
  obtain ⟨next, hinstall, hnext⟩ := exists_install hat hfoot hunit (Term.sound_leaf (by simp)) rfl
    host assembler splitter world
  exact ⟨arena₁, arena₂, unit, next, hrelease, halloc, hinstall, hnext⟩

/-- A number is put out as the next byte. -/
theorem At.exists_putByte {node ref ref' : Ref} {number : Option Nat}
    (hat : session.At layers (.app node (.leaf ref (.pending number)) (.leaf ref' .unit)))
    (host : Host σ) :
    ∃ outcome, session.putByte host ⟨node, ref, ref'⟩ number = .ok outcome ∧
      session.Yields host (layers.map Layer.term) (.leaf (.pending number)) (.leaf .unit)
        outcome := by
  cases number with
  | none =>
      refine ⟨(some .invalidUtf8, session), rfl, [], .error .invalidUtf8, .nil, rfl,
        hat.shows_error _, fun answers notes _ => ?_⟩
      rw [List.append_nil]
      exact .sendMarker
  | some n =>
      cases hpush : session.machine.assembler.push n with
      | refused =>
          refine ⟨(some .invalidUtf8, session), ?_, [], .error .invalidUtf8, .nil, rfl,
            hat.shows_error _, fun answers notes _ => ?_⟩
          · simp only [putByte, Option.map_some, hpush]
            rfl
          · rw [List.append_nil]
            exact .sendFails (by simp only [Surroundings.send, around, hpush])
      | taken assembler' =>
          obtain ⟨⟨arena, cursor, assembler, splitter⟩, world⟩ := session
          obtain ⟨arena₁, arena₂, unit, next, hrelease, halloc, hinstall, hperforms, haround,
            hshows⟩ := exists_install_unit hat host assembler' splitter world
          replace hpush : assembler.push n = .taken assembler' := hpush
          refine ⟨(none, next), ?_, [], .ok (.leaf .unit), hperforms,
            (Term.Stage.failure?_resume _ _).symm, hshows, fun answers notes _ => ?_⟩
          · simp only [putByte, Option.map_some, hpush, hrelease, halloc, Utf8.Assembler.after,
              hinstall, bind, Except.bind, pure, Except.pure]
          · rw [List.append_nil, haround]
            exact .send (by simp only [Surroundings.send, around, hpush])
      | completed character =>
          obtain ⟨⟨arena, cursor, assembler, splitter⟩, world⟩ := session
          obtain ⟨arena₁, arena₂, unit, next, hrelease, halloc, hinstall, hperforms, haround,
            hshows⟩ := exists_install_unit hat host {} splitter (host.put character world)
          replace hpush : assembler.push n = .completed character := hpush
          refine ⟨(none, next), ?_, [.put character], .ok (.leaf .unit), .put hperforms,
            (Term.Stage.failure?_resume _ _).symm, hshows, fun answers notes _ => ?_⟩
          · simp only [putByte, Option.map_some, hpush, hrelease, halloc, Utf8.Assembler.after,
              hinstall, bind, Except.bind, pure, Except.pure]
          · rw [haround]
            exact .send (by simp only [Surroundings.send, around, hpush]; rfl)

/-- The numeral of a byte is given in the place of a redex that is used up. -/
theorem exists_giveByte {arena : Program} {cursor : Cursor} {node ref ref' : Ref} {atom : Atom}
    (hat : cursor.At arena layers (.app node (.leaf ref atom) (.leaf ref' .unit))) (host : Host σ)
    (byte : UInt8) (assembler : Utf8.Assembler) (splitter : Utf8.Splitter) (world : σ) :
    ∃ next, giveByte host ⟨node, ref, ref'⟩ byte ⟨⟨arena, cursor, assembler, splitter⟩, world⟩ =
        .ok (none, next) ∧
      host.Performs [] world next.world ∧
      (∀ notes : List Call, next.around notes = ⟨assembler, splitter, notes⟩) ∧
      next.Shows (.resume (layers.map Layer.term) (.numeral byte.toNat)) := by
  obtain ⟨arena₁, hrelease, hgone⟩ := exists_releaseRedex (hat.keeps.isTree.of_within layers)
  obtain ⟨result, arena₂, hchurch, hterm, hresult, hgrow⟩ :=
    (hgone.wellFormed hat.keeps.wellFormed).exists_church byte.toNat
  have hsound : result.term.Sound := hterm ▸ Term.sound_numeral _
  obtain ⟨next, hinstall, hperforms, haround, hshows⟩ := exists_install hat (hgone.trans hgrow)
    hresult hsound (by rw [hterm]; rfl) host assembler splitter world
  refine ⟨next, ?_, hperforms, haround, hterm ▸ hshows⟩
  simp only [giveByte, hrelease, hchurch, hinstall, bind, Except.bind, pure, Except.pure]

/-- A random byte is drawn. -/
theorem At.exists_drawByte {node ref ref' : Ref}
    (hat : session.At layers (.app node (.leaf ref .random) (.leaf ref' .unit))) (host : Host σ) :
    ∃ outcome, session.drawByte host ⟨node, ref, ref'⟩ = .ok outcome ∧
      session.Yields host (layers.map Layer.term) (.leaf .random) (.leaf .unit) outcome := by
  obtain ⟨⟨arena, cursor, assembler, splitter⟩, world⟩ := session
  obtain ⟨next, hgive, hperforms, haround, hshows⟩ := exists_giveByte hat host
    (host.random world).1 assembler splitter (host.random world).2
  refine ⟨(none, next), hgive, [.random (host.random world).1], .ok (.numeral _),
    .random rfl hperforms, (Term.Stage.failure?_resume _ _).symm, hshows,
    fun answers notes hexplains => ?_⟩
  rw [haround]
  refine .random ?_
  simp only [Surroundings.draw, around, hexplains.host_random]

/-- The host is asked for a character, with the text of the program or without it. -/
theorem finishes_nextChar {arena : Program} {whole : Layout Atom} (hholds : arena.Holds whole)
    (host : Host σ) (marked : Option Ref) (world : σ) :
    ∃ text, Finishes (fun fuel => host.nextChar
      (fun _ => arena.listing fuel (some whole.root) marked) world) (host.get text world) := by
  cases hshown : host.shows world with
  | true =>
      refine ⟨some (Listing.writeAll "" none (whole.pieces marked)), ?_⟩
      simp only [Host.nextChar, hshown, if_true]
      exact (hholds.finishes_listing marked).bind (.pure _)
  | false =>
      refine ⟨none, .of_eq fun _ => ?_⟩
      simp [Host.nextChar, hshown, pure, Except.pure]

/-- The next input byte is one that is owed, or the first of the next character. -/
theorem finishes_nextByte {arena : Program} {whole : Layout Atom} (hholds : arena.Holds whole)
    (host : Host σ) (marked : Option Ref) (assembler : Utf8.Assembler) (splitter : Utf8.Splitter)
    (world : σ) :
    ∃ byte splitter' world' calls,
      Finishes (fun fuel => host.nextByte (fun _ => arena.listing fuel (some whole.root) marked)
        splitter world) (byte, splitter', world') ∧
      host.Performs calls world world' ∧
      ∀ (answers : Answers) notes, answers.Explains (notes ++ calls) →
        (⟨assembler, splitter, notes⟩ : Surroundings (List Call)).receive answers.host =
          (byte, ⟨assembler, splitter', notes ++ calls⟩) := by
  obtain ⟨owed⟩ := splitter
  cases owed with
  | cons byte owed =>
      refine ⟨some byte, ⟨owed⟩, world, [], .of_eq fun _ => rfl, .nil, fun answers notes _ => ?_⟩
      rw [List.append_nil]
      rfl
  | nil =>
      obtain ⟨text, hchar⟩ := finishes_nextChar hholds host marked world
      cases hget : host.get text world with
      | mk answer world' =>
          rw [hget] at hchar
          cases answer with
          | none =>
              refine ⟨none, {}, world', [.get none], hchar.bind (.pure _), .get hget .nil,
                fun answers notes hexplains => ?_⟩
              simp only [Surroundings.receive, hexplains.host_get]
          | some character =>
              refine ⟨some (Utf8.Splitter.start character).1,
                (Utf8.Splitter.start character).2, world', [.get (some character)],
                hchar.bind (.pure _), .get hget .nil, fun answers notes hexplains => ?_⟩
              simp only [Surroundings.receive, hexplains.host_get]

/-- The next input byte is given, or the input has ended. -/
theorem At.finishes_getByte {node ref ref' : Ref}
    (hat : session.At layers (.app node (.leaf ref .get) (.leaf ref' .unit))) (host : Host σ) :
    ∃ outcome, Finishes (fun fuel => session.getByte host fuel ⟨node, ref, ref'⟩) outcome ∧
      session.Yields host (layers.map Layer.term) (.leaf .get) (.leaf .unit) outcome := by
  obtain ⟨⟨arena, cursor, assembler, splitter⟩, world⟩ := session
  replace hat : cursor.At arena layers (.app node (.leaf ref .get) (.leaf ref' .unit)) := hat
  obtain ⟨byte, splitter', world', calls, hnext, hperforms, hreceive⟩ := finishes_nextByte
    hat.keeps.isTree.holds host cursor.redex assembler splitter world
  rw [← hat.keeps.root_eq] at hnext
  cases byte with
  | none =>
      refine ⟨(some .aborted, ⟨⟨arena, cursor, assembler, splitter'⟩, world'⟩),
        hnext.bind (.pure _), calls, .error .aborted, hperforms, rfl, ?_,
        fun answers notes hexplains => .getFails (hreceive answers notes hexplains)⟩
      exact ⟨_, hat.keeps.isTree.holds, hat.keeps.root_eq⟩
  | some byte =>
      obtain ⟨next, hgive, hperforms', haround, hshows⟩ :=
        exists_giveByte hat host byte assembler splitter' world'
      have hperforms'' := hperforms.append hperforms'
      rw [List.append_nil] at hperforms''
      refine ⟨(none, next), hnext.bind (.of_eq fun _ => hgive), calls, .ok (.numeral _),
        hperforms'', (Term.Stage.failure?_resume _ _).symm, hshows,
        fun answers notes hexplains => ?_⟩
      rw [haround]
      exact .get (hreceive answers notes hexplains)

end Session

end LambdaMachine
