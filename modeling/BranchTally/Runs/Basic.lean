import BranchTally.Flow.Memory
import BranchTally.Tree.Order

/-! How often each node ran, and the demotion of nodes that are covered only in part: a branching
construct that ran, but one of whose branches never did, counts as one that did not run. Nodes are
revisited children first, so that a demoted branch demotes the construct around it. -/

namespace BranchTally

open BranchTally.Flow

/-- A count for each node, by its number. -/
abbrev Runs := Array Int

def covered (runs : Int) : Bool := runs ≠ 0

namespace Runs

def at? (runs : Runs) (id : NodeId) : Except Fault Int :=
  match runs[id]? with
  | some n => .ok n
  | none => .error .unknownPlace

def enter (runs : Runs) (id : NodeId) (n : Int) : Runs := runs.setIfInBounds id n

/-- Enters the executions of the nodes, one after the other. -/
def enterAll (runs : Runs) : List NodeId → Derivation Runs
  | [] => return runs
  | id :: ids => do enterAll (runs.enter id (← count (.execution id))) ids

/-- The executions of all nodes that can be reached. -/
def raw (t : Tree) : Derivation Runs := enterAll (.replicate t.size 0) t.preorder

/-- The runs of the node in a slot. -/
def inSlot (t : Tree) (runs : Runs) (owner : NodeId) (slot : Slot) (name : String) :
    Except Fault Int := do
  runs.at? (← t.required owner slot name)

/-- The runs of the body of a dispatch arm. -/
def inArm (t : Tree) (runs : Runs) (arm : NodeId) : Except Fault Int := do
  match (← t.node arm).construct with
  | .arm _ body => inSlot t runs arm body "body"
  | _ => t.refuse arm

def inArms (t : Tree) (runs : Runs) : List NodeId → Except Fault (List Int)
  | [] => return []
  | arm :: arms => do
    let first ← inArm t runs arm
    return first :: (← inArms t runs arms)

/-- How often each branch of a construct ran, taken from `runs` where the branch is a node. -/
def branches (e : Evidence) (runs : Runs) (id : NodeId) : Derivation (List Int) := do
  match (← e.tree.node id).construct with
  | .conditional _ _ whenTrue whenFalse => do
    let held ← inSlot e.tree runs id whenTrue "true branch"
    let failed ← inSlot e.tree runs id whenFalse "false branch"
    return [held, failed]
  | .dispatch _ arms otherwise => do
    let matched ← inArms e.tree runs arms
    let unmatched ← inSlot e.tree runs id otherwise "else branch"
    return matched ++ [unmatched]
  | .shortCircuit _ _ right => do
    let evaluated ← inSlot e.tree runs id right "right operand"
    let skipped ← count (.implicitBranch id)
    return [evaluated, skipped]
  | .safeNavigation .. => do
    let skipped ← count (.implicitBranch id)
    let made ← e.hits id .nonNil
    return [skipped, made]
  | .loop _ _ _ body => do
    let repeated ← inSlot e.tree runs id body "body"
    let left ← count (.implicitBranch id)
    return [repeated, left]
  | .expression .. | .sequence .. | .emptyBody | .arm .. | .rescue .. | .handler ..
  | .ensure .. => return []

/-- Demotes the nodes in turn. -/
def demoteAll (e : Evidence) (runs : Runs) : List NodeId → Derivation Runs
  | [] => return runs
  | id :: ids => do
    if covered (← runs.at? id) then
      match (← branches e runs id).min? with
      | some worst => demoteAll e (if covered worst then runs else runs.enter id worst) ids
      | none => demoteAll e runs ids
    else demoteAll e runs ids

/-- The runs with every node demoted that is covered only in part. -/
def demote (e : Evidence) (runs : Runs) : Derivation Runs :=
  demoteAll e runs e.tree.preorder.reverse

end Runs

end BranchTally
