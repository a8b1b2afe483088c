import BranchTally.Source
import BranchTally.Tree.Basic

/-! Where a branch is reported. A branch with content is reported where it stands. A branch that is
written but empty is reported at a marker, if there is one. A branch with no syntax at all is
reported at the construct around it, except that the missing else of a dispatch is reported at the
subject. A chain of conditionals that ends in an empty else reaches up to the closing keyword of
its first conditional. -/

namespace BranchTally.Report

/-- A tree and the text it was read from. -/
structure Site where
  tree : Tree
  source : Source

namespace Site

variable (s : Site)

/-! ### Chains of conditionals -/

/-- Whether a slot holds a conditional that goes on a chain. -/
def isChained : Slot → Except Fault Bool
  | none => return false
  | some id => do
    match (← s.tree.node id).construct with
    | .conditional .chained .. => return true
    | _ => return false

/-- Climbs fewer than this many levels, from chained conditionals to their parents. -/
def climb : Nat → NodeId → Except Fault NodeId
  | 0, _ => .error .circular
  | levels + 1, id => do
    if ← s.isChained (some id) then
      match ← s.tree.parent id with
      | some parent => climb levels parent
      | none => return id
    else return id

/-- The conditional that a chain hangs from. -/
def outermost (id : NodeId) : Except Fault NodeId := s.climb (s.tree.size + 1) id

/-- What a conditional goes on with when its condition fails. -/
def falseBranch (id : NodeId) : Except Fault Slot := do
  match (← s.tree.node id).construct with
  | .conditional _ _ _ whenFalse => return whenFalse
  | _ => s.tree.refuse id

/-- Descends through fewer than this many chained conditionals. -/
def descend : Nat → NodeId → Except Fault NodeId
  | 0, _ => .error .circular
  | levels + 1, id => do
    let next ← s.falseBranch id
    match next with
    | none => return id
    | some below => if ← s.isChained next then descend levels below else return id

/-- The last conditional of the chain that goes on at a conditional. -/
def deepest (id : NodeId) : Except Fault NodeId := s.descend (s.tree.size + 1) id

/-! ### Locating -/

/-- Where a node is reported. -/
def reportedSpan (id : NodeId) : Except Fault Span := do
  let span ← s.tree.span id
  if ← s.isChained (some id) then
    let last ← s.falseBranch (← s.deepest id)
    if ← s.tree.isEmptyBody last then
      match ← s.tree.keyword? (← s.outermost id) .closing with
      | some closing => return span.withStop closing.start
      | none => return span
    else return span
  else return span

/-- Where a branch of a construct is reported, `marker` being the place for one that is written
but empty. -/
def resolve (enclosing : NodeId) (branch : Slot) (marker : Option Span) : Except Fault Span := do
  let id ← s.tree.required enclosing branch "branch"
  if ← s.tree.isEmptyBody branch then
    match (← s.tree.node id).span with
    | some written => return marker.getD written
    | none =>
      match (← s.tree.node enclosing).construct with
      | .dispatch (some subject) _ otherwise =>
        if otherwise = branch then s.tree.span subject else s.reportedSpan enclosing
      | _ => s.reportedSpan enclosing
  else s.reportedSpan id

end Site

end BranchTally.Report
