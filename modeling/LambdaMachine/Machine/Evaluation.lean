import LambdaMachine.Host.Basic
import LambdaMachine.Numeral.Value

/-!
# Programs as terms

What a program means without a machine: evaluation by value, where applying a
built-in acts on the world of a host and on the unfinished characters on the way out
and in.
-/

namespace LambdaMachine

/-- What the built-ins of a program act on. -/
structure Surroundings (σ : Type) where
  assembler : Utf8.Assembler
  splitter : Utf8.Splitter
  world : σ

variable {σ : Type}

namespace Surroundings

/-- Send a number out as the next byte. -/
def send (host : Host σ) (number : Nat) (around : Surroundings σ) :
    Except Failure (Surroundings σ) :=
  match around.assembler.push number with
  | .refused => .error .invalidUtf8
  | .taken assembler => .ok { around with assembler }
  | .completed character =>
      .ok { around with assembler := {}, world := host.put character around.world }

/-- Receive the next byte, if there is one. -/
def receive (host : Host σ) (around : Surroundings σ) : Option UInt8 × Surroundings σ :=
  match around.splitter.owed with
  | byte :: owed => (some byte, { around with splitter := ⟨owed⟩ })
  | [] =>
      match host.get none around.world with
      | (none, world) => (none, { around with world })
      | (some character, world) =>
          let (byte, splitter) := Utf8.Splitter.start character
          (some byte, { around with splitter, world })

/-- Draw a random byte. -/
def draw (host : Host σ) (around : Surroundings σ) : UInt8 × Surroundings σ :=
  let (byte, world) := host.random around.world
  (byte, { around with world })

end Surroundings

/-- Whether a leaf takes the unit. -/
def Atom.takesUnit : Atom → Bool
  | .pending _ => true
  | .get => true
  | .random => true
  | _ => false

/-- What applying a value other than an abstraction does. -/
inductive Atom.Rule (host : Host σ) : Term.Rule Atom Failure (Surroundings σ) where
  | put {around operand number} (hnumber : operand.Counts (some number)) :
      Rule host around (.leaf .put) operand (.ok (.leaf (.pending (some number)))) around
  | putFails {around operand} (hnumber : operand.Counts none) :
      Rule host around (.leaf .put) operand (.error .notANumeral) around
  | notNull {around atom operand} (hatom : atom.takesUnit = true)
      (hoperand : operand ≠ .leaf .unit) :
      Rule host around (.leaf atom) operand (.error .notNull) around
  | send {around around' number} (hsend : around.send host number = .ok around') :
      Rule host around (.leaf (.pending (some number))) (.leaf .unit) (.ok (.leaf .unit))
        around'
  | sendFails {around number failure} (hsend : around.send host number = .error failure) :
      Rule host around (.leaf (.pending (some number))) (.leaf .unit) (.error failure)
        around
  | sendMarker {around} :
      Rule host around (.leaf (.pending none)) (.leaf .unit) (.error .invalidUtf8) around
  | get {around around' byte} (hreceive : around.receive host = (some byte, around')) :
      Rule host around (.leaf .get) (.leaf .unit) (.ok (.numeral byte.toNat)) around'
  | getFails {around around'} (hreceive : around.receive host = (none, around')) :
      Rule host around (.leaf .get) (.leaf .unit) (.error .aborted) around'
  | random {around around' byte} (hdraw : around.draw host = (byte, around')) :
      Rule host around (.leaf .random) (.leaf .unit) (.ok (.numeral byte.toNat)) around'
  | notAFunction {around operand} :
      Rule host around (.leaf .unit) operand (.error .notAFunction) around

/-- A program has an outcome among its surroundings, which it leaves changed, after
some number of steps. -/
abbrev Program.Evaluates (host : Host σ) :
    Surroundings σ → Term Atom → Except Failure (Term Atom) → Surroundings σ → Nat → Prop :=
  Term.Evaluates (Atom.Rule host)

end LambdaMachine
