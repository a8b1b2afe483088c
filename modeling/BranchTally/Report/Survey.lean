import BranchTally.Flow.Memory
import BranchTally.Log
import BranchTally.Report.Record
import BranchTally.Tree.Order

/-! The survey of a tree, parents before children: each construct that branches is planned and its
branches are counted, until one of them has a fault. The report is the survey with its places
numbered. -/

namespace BranchTally.Report

open BranchTally.Flow

/-! ### Counting -/

/-- The count of a branch of a construct. -/
def Tally.count (e : Evidence) (id : NodeId) : Tally → Derivation Int
  | .derived q => Flow.count q
  | .hits role => e.hits id role

def countBranches (e : Evidence) (id : NodeId) :
    List (Except Fault Branch) → Derivation (List (Branch × Int))
  | [] => return []
  | branch :: branches => do
    let b ← branch
    let n ← b.tally.count e id
    return (b, n) :: (← countBranches e id branches)

def Plan.count (p : Plan) (e : Evidence) : Derivation Tallied :=
  return ⟨p.label.id, p.tag, p.span, ← countBranches e p.label.id p.branches⟩

/-! ### The survey of a tree -/

/-- What comes of surveying nodes: what there was to say, the constructs up to a fault, and the
counts remembered. -/
structure Survey (α : Type) where
  notes : List Message
  result : Except Fault α
  memory : Memory

/-- Takes up the nodes in turn. -/
def survey (e : Evidence) (source : Source) : List NodeId → Memory → Survey (List Tallied)
  | [], m => ⟨[], .ok [], m⟩
  | id :: ids, m =>
    match Site.plan? ⟨e.tree, source⟩ id with
    | .error fault => ⟨[], .error fault, m⟩
    | .ok none => survey e source ids m
    | .ok (some plan) =>
      let note : Message := ⟨.trace, "branches of " ++ plan.label.text⟩
      match e.resume (plan.count e) m with
      | (.error fault, m) => ⟨[note], .error fault, m⟩
      | (.ok t, m) =>
        let rest := survey e source ids m
        ⟨note :: rest.notes, rest.result.map (t :: ·), rest.memory⟩

/-- The report on the tree of the evidence. -/
def build (e : Evidence) (source : Source) (m : Memory) : Survey (List Record) :=
  let s := survey e source e.tree.preorder m
  match s.result with
  | .error fault => ⟨s.notes, .error fault, s.memory⟩
  | .ok tallied =>
    let records := number 1 tallied
    let total := toString records.length ++ " branching constructs, " ++
      toString (places records) ++ " locations"
    ⟨s.notes ++ [⟨.debug, total⟩], .ok records, s.memory⟩

end BranchTally.Report
