import BranchTally.Fault

/-! Counts that rest on other counts. A derivation ends with a value or a fault, or asks for a count
and goes on with the answer; it does not say how the count is found. Derivations follow one another
as in any monad, and have an outcome for every way of answering. -/

namespace BranchTally.Flow

/-- A count that is derived and not read off a tracker. -/
inductive Query where
  /-- How often control entered a node from its predecessor. -/
  | entry (id : NodeId)
  /-- How often control reached the start of a node. -/
  | execution (id : NodeId)
  /-- How often control left a node by falling through. -/
  | completion (id : NodeId)
  /-- How many exceptions reached a handler arm, by what precedes it. -/
  | handlerEntry (arm : NodeId)
  /-- How often control took the branch that has no node: past the right operand of a
  short-circuit, past the call of a safe navigation, or out of a loop. -/
  | implicitBranch (id : NodeId)
  deriving DecidableEq, Repr

inductive Derivation (α : Type) where
  | done (a : α)
  | fail (fault : Fault)
  | ask (q : Query) (next : Int → Derivation α)

namespace Derivation

variable {α β : Type}

def bind : Derivation α → (α → Derivation β) → Derivation β
  | done a, f => f a
  | fail fault, _ => fail fault
  | ask q next, f => ask q fun n => (next n).bind f

instance : Monad Derivation where
  pure := done
  bind := bind

theorem bind_done (d : Derivation α) : d.bind done = d := by
  induction d with
  | done a => rfl
  | fail fault => rfl
  | ask q next ih => simp [bind, ih]

theorem bind_assoc {γ : Type} (d : Derivation α) (f : α → Derivation β) (g : β → Derivation γ) :
    (d.bind f).bind g = d.bind fun a => (f a).bind g := by
  induction d with
  | done a => rfl
  | fail fault => rfl
  | ask q next ih => simp [bind, ih]

instance : LawfulMonad Derivation :=
  LawfulMonad.mk' _ bind_done (fun _ _ => rfl) bind_assoc

def ofExcept : Except Fault α → Derivation α
  | .ok a => done a
  | .error fault => fail fault

instance : MonadLift (Except Fault) Derivation := ⟨ofExcept⟩

/-! ### Outcomes -/

/-- The outcome when every count asked for is answered in this way. -/
def run (answer : Query → Except Fault Int) : Derivation α → Except Fault α
  | done a => .ok a
  | fail fault => .error fault
  | ask q next =>
    match answer q with
    | .ok n => (next n).run answer
    | .error fault => .error fault

/-- The outcome when answering also changes a state, which outlives a fault. -/
def runState {σ : Type} (answer : Query → σ → Except Fault Int × σ) :
    Derivation α → σ → Except Fault α × σ
  | done a, s => (.ok a, s)
  | fail fault, s => (.error fault, s)
  | ask q next, s =>
    match answer q s with
    | (.ok n, s) => (next n).runState answer s
    | (.error fault, s) => (.error fault, s)

@[simp] theorem run_pure (answer : Query → Except Fault Int) (a : α) :
    (pure a : Derivation α).run answer = .ok a := rfl

theorem run_bind (answer : Query → Except Fault Int) (d : Derivation α) (f : α → Derivation β) :
    (d >>= f).run answer = (d.run answer).bind fun a => (f a).run answer := by
  change (d.bind f).run answer = _
  induction d with
  | done a => rfl
  | fail fault => rfl
  | ask q next ih =>
    simp only [bind, run]
    cases answer q with
    | ok n => exact ih n
    | error fault => rfl

@[simp] theorem run_ofExcept (answer : Query → Except Fault Int) (r : Except Fault α) :
    (ofExcept r).run answer = r := by
  cases r <;> rfl

theorem runState_bind {σ : Type} (answer : Query → σ → Except Fault Int × σ) (d : Derivation α)
    (f : α → Derivation β) (s : σ) :
    (d >>= f).runState answer s =
      match d.runState answer s with
      | (.ok a, s) => (f a).runState answer s
      | (.error fault, s) => (.error fault, s) := by
  change (d.bind f).runState answer s = _
  induction d generalizing s with
  | done a => rfl
  | fail fault => rfl
  | ask q next ih =>
    simp only [bind, runState]
    match answer q s with
    | (.ok n, s) => exact ih n s
    | (.error fault, s) => rfl

end Derivation

/-- Asks for one count. -/
def count (q : Query) : Derivation Int := .ask q .done

@[simp] theorem run_count (answer : Query → Except Fault Int) (q : Query) :
    (count q).run answer = answer q := by
  simp only [count, Derivation.run]
  cases answer q <;> rfl

end BranchTally.Flow
