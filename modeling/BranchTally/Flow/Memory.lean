import BranchTally.Flow.Rules

/-! Counts that are derived once and remembered. Entries, executions and completions are kept when
they have a value; faults are not kept, and neither are the counts that lead to a handler arm or
along a branch with no node. What is kept stays as it is even if the counters change. -/

namespace BranchTally.Flow

/-- The counts kept for each node. -/
structure Memory where
  entries : Array (Option Int)
  executions : Array (Option Int)
  completions : Array (Option Int)
  deriving Repr

namespace Memory

/-- The memory that keeps nothing yet for a number of nodes. -/
def blank (size : Nat) : Memory :=
  ⟨.replicate size none, .replicate size none, .replicate size none⟩

def find? (m : Memory) : Query → Option Int
  | .entry id => m.entries[id]?.join
  | .execution id => m.executions[id]?.join
  | .completion id => m.completions[id]?.join
  | .handlerEntry _ | .implicitBranch _ => none

def keep (m : Memory) (q : Query) (n : Int) : Memory :=
  match q with
  | .entry id => { m with entries := m.entries.setIfInBounds id (some n) }
  | .execution id => { m with executions := m.executions.setIfInBounds id (some n) }
  | .completion id => { m with completions := m.completions.setIfInBounds id (some n) }
  | .handlerEntry _ | .implicitBranch _ => m

end Memory

namespace Evidence

variable (e : Evidence)

/-- The count kept, or else the count derived from counts that are looked up in the same way. -/
def consult : Nat → Query → Memory → Except Fault Int × Memory
  | 0, _, m => (.error .circular, m)
  | depth + 1, q, m =>
    match m.find? q with
    | some n => (.ok n, m)
    | none =>
      match (e.rule q).runState (consult depth) m with
      | (.ok n, m) => (.ok n, m.keep q n)
      | (.error fault, m) => (.error fault, m)

/-- The outcome of a derivation whose counts are looked up. -/
def resume {α : Type} (d : Derivation α) (m : Memory) : Except Fault α × Memory :=
  d.runState (e.consult e.depth) m

def memory : Memory := .blank e.tree.size

end Evidence

end BranchTally.Flow
