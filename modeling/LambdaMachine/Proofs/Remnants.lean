import LambdaMachine.Proofs.Forests
import LambdaMachine.Proofs.Parsing

/-!
# What reading leaves in the arena

Every text is read into trees of new nodes that stand apart from each other, and nothing else
in the arena is touched (`exists_remnants`). While a text is read these are the parts that its
frames have received. When the text is rejected they stay behind; when it is accepted there is
one tree, and it is the program.
-/

namespace LambdaMachine

namespace Arena

variable {α : Type} {arena : Arena α} {body function argument : Layout α}

theorem WellFormed.exists_replaces_lam (hwf : arena.WellFormed) (hbody : arena.IsTree body) :
    ∃ ref arena', arena.alloc (.lam body.root) = (ref, arena') ∧
      Replaces arena [body] [.lam ref body] arena' := by
  obtain ⟨ref, arena', halloc, htree, hexchange⟩ := hwf.exists_alloc_lam hbody
  exact ⟨ref, arena', halloc, .of_isTree htree ((hexchange.frame _).of_mem_iff (fun _ => Iff.rfl)
    (by simp [Layout.refs]))⟩

theorem WellFormed.exists_replaces_app (hwf : arena.WellFormed) (hfunction : arena.IsTree function)
    (hargument : arena.IsTree argument) (hdisjoint : argument.refs.Disjoint function.refs) :
    ∃ ref arena', arena.alloc (.app function.root argument.root) = (ref, arena') ∧
      Replaces arena [argument, function] [.app ref function argument] arena' := by
  obtain ⟨ref, arena', halloc, htree, hexchange⟩ :=
    hwf.exists_alloc_app hfunction hargument (List.disjoint_symm hdisjoint)
  exact ⟨ref, arena', halloc, .of_isTree htree ((hexchange.frame _).of_mem_iff (fun _ => Iff.rfl)
    (by simp [Layout.refs, or_comm]))⟩

end Arena

namespace Source

open Arena (Replaces)

/-- The parts that waiting frames have received, the last one first. -/
inductive Received : List Frame → List (Layout Atom) → Prop where
  | nil : Received [] []
  | lam {frames parts} (h : Received frames parts) : Received (.lam :: frames) parts
  | app {frames parts} (h : Received frames parts) : Received (.app :: frames) parts
  | appTo {frames parts} (part : Layout Atom) (h : Received frames parts) :
      Received (.appTo part.root :: frames) (part :: parts)

variable {start arena : Program} {frames : List Frame} {part : Layout Atom}
  {parts : List (Layout Atom)} {depth : Nat} {ending : Ending} {stop : Position}

theorem leaf_of_meaning {token : Token} {node : Node Atom}
    (hmeaning : Reading.meaning depth token = .ok (.leaf node)) :
    (∃ index, node = .var index) ∨ ∃ atom, node = .leaf atom := by
  unfold Reading.meaning at hmeaning
  split at hmeaning
  case h_4 index =>
      split at hmeaning <;> cases hmeaning
      exact .inl ⟨index, rfl⟩
  all_goals cases hmeaning
  all_goals exact .inr ⟨_, rfl⟩

theorem exists_replaces_of_meaning {token : Token} {node : Node Atom} (hwf : arena.WellFormed)
    (hmeaning : Reading.meaning depth token = .ok (.leaf node)) :
    ∃ leaf arena', arena.alloc node = (leaf.root, arena') ∧ Replaces arena [] [leaf] arena' := by
  rcases leaf_of_meaning hmeaning with ⟨index, rfl⟩ | ⟨atom, rfl⟩
  · obtain ⟨ref, arena', halloc, htree, hexchange⟩ := hwf.exists_alloc_var index
    exact ⟨.var ref index, arena', halloc, .of_isTree htree hexchange⟩
  · obtain ⟨ref, arena', halloc, htree, hexchange⟩ := hwf.exists_alloc_leaf atom
    exact ⟨.leaf ref atom, arena', halloc, .of_isTree htree hexchange⟩

/-- A finished part completes the program, or waits in a frame. -/
theorem Received.exists_complete (hreceived : Received frames parts) (hwf : start.WellFormed)
    (hparts : Replaces start [] (part :: parts) arena) :
    (∃ whole arena', Reading.complete arena depth part.root frames = .root arena' whole.root ∧
      Replaces start [] [whole] arena') ∨
    ∃ reading parts', Reading.complete arena depth part.root frames = .waiting reading ∧
      Received reading.frames parts' ∧ Replaces start [] parts' reading.arena := by
  induction hreceived generalizing part arena depth with
  | nil => exact .inl ⟨part, arena, rfl, hparts⟩
  | lam _ ih =>
      obtain ⟨ref, arena', halloc, hlam⟩ := (hparts.exchange.wellFormed hwf).exists_replaces_lam
        (hparts.isTree part List.mem_cons_self)
      rw [Reading.complete, halloc]
      exact ih (hlam.after hparts)
  | @app frames parts hreceived _ =>
      exact .inr ⟨⟨arena, .appTo part.root :: frames, depth⟩, part :: parts, rfl,
        .appTo part hreceived, hparts⟩
  | @appTo frames parts function hreceived ih =>
      have hapart := (List.pairwise_cons.mp hparts.apart).1 function List.mem_cons_self
      obtain ⟨ref, arena', halloc, happ⟩ := (hparts.exchange.wellFormed hwf).exists_replaces_app
        (hparts.isTree function (List.mem_cons_of_mem _ List.mem_cons_self))
        (hparts.isTree part List.mem_cons_self) hapart
      rw [Reading.complete, halloc]
      exact ih (happ.after hparts)

theorem finish_arena (root : Ref) (tokens : List (Position × Token)) :
    (finish arena root ending stop tokens).arena = arena := by
  cases tokens with
  | nil => cases ending <;> rfl
  | cons token tokens => rfl

/-- Reading on keeps the parts apart until there is one, or the text is rejected. -/
theorem Received.exists_remnants (hreceived : Received frames parts) (hwf : start.WellFormed)
    (hparts : Replaces start [] parts arena) (tokens : List (Position × Token)) :
    ∃ built, Replaces start [] built
        (readTokens ending stop ⟨arena, frames, depth⟩ tokens).arena ∧
      ∀ root, (readTokens ending stop ⟨arena, frames, depth⟩ tokens).result = .ok root →
        ∃ tree, built = [tree] ∧ tree.root = root := by
  induction tokens generalizing arena frames depth parts with
  | nil =>
      refine ⟨parts, ?_, fun root hok => ?_⟩
      · cases ending <;> exact hparts
      · cases ending <;> cases hok
  | cons head tokens ih =>
      obtain ⟨position, token⟩ := head
      cases hmeaning : Reading.meaning depth token with
      | error kind =>
          simp only [readTokens, hmeaning]
          refine ⟨parts, hparts, fun root hok => ?_⟩
          cases hok
      | ok meaning =>
          cases meaning with
          | abstraction =>
              simp only [readTokens, hmeaning]
              exact ih hreceived.lam hparts
          | application =>
              simp only [readTokens, hmeaning]
              exact ih hreceived.app hparts
          | leaf node =>
              obtain ⟨leaf, arena', halloc, hleaf⟩ :=
                exists_replaces_of_meaning (hparts.exchange.wellFormed hwf) hmeaning
              rw [readTokens_leaf hmeaning halloc]
              rcases hreceived.exists_complete hwf (hleaf.after hparts) with
                ⟨whole, arena'', hcomplete, hwhole⟩ |
                ⟨reading, parts', hcomplete, hreceived', hparts'⟩
              · rw [hcomplete, proceed]
                refine ⟨[whole], by rwa [finish_arena], fun root hok => ⟨whole, rfl, ?_⟩⟩
                exact (finish_eq_ok_iff.mp hok).2.2.symm
              · rw [hcomplete, proceed]
                exact ih hreceived' hparts'

/-- Whatever the text is, reading it takes slots for trees that stand apart. If it is accepted,
there is one tree. -/
theorem exists_remnants (text : String) (hwf : arena.WellFormed) :
    ∃ built, Replaces arena [] built (parse text arena).arena ∧
      ∀ root, (parse text arena).result = .ok root → ∃ tree, built = [tree] ∧ tree.root = root :=
  Received.nil.exists_remnants hwf (.refl arena) _

end Source

end LambdaMachine
