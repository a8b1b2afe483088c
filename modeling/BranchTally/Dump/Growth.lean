import BranchTally.Dump.Layout
import BranchTally.Tree.Edit

/-! Growing a tree from a dump by edits. A node is reserved before its children are grown, so that it
is numbered before them; it is filled in and adopts them once they are there. Until it is adopted
itself it has no parent. -/

namespace BranchTally.Dump

/-- A stretch of growth: it edits the tree, which may refuse an edit, and reads what the dump says. -/
abbrev Growth := StateT Tree (ExceptT Fault Reading)

namespace Growth

def reserve : Growth NodeId := modifyGet Tree.reserve

def edit (f : Tree → Except Fault Tree) : Growth Unit := fun t =>
  ExceptT.mk (pure ((f t).map ((), ·)))

def read {α : Type} (r : Reading α) : Growth α := fun t => ExceptT.mk do
  return .ok (← r, t)

end Growth

/-- Gives a node these children, which are in the tree. -/
def adopting (t : Tree) (parent : NodeId) (slots : List Slot) : Except Fault Tree :=
  let (t, outcome) := t.adopt parent slots
  outcome.map fun _ => t

mutual

/-- Grows a node and what lies below it. -/
def grow : Dump → Growth Placed
  | d@(.node kind _ span attributes children) =>
    if d.isAbsent then return ⟨kind, none, []⟩
    else do
      let id ← Growth.reserve
      let kids ← growAll children
      let decorations ← Growth.read (d.readAttributes ⟨[], []⟩ attributes)
      let what ← Growth.read (.lift d.line (d.construct kids))
      Growth.edit fun t => t.modify id fun n =>
        { n with
          construct := what
          span := span
          trackers := decorations.trackers
          keywords := decorations.keywords }
      Growth.edit fun t => adopting t id (kids.map (·.slot))
      return ⟨kind, some id, []⟩

/-- Grows the children of a node in turn. -/
def growAll : List Dump → Growth (List Placed)
  | [] => return []
  | d :: ds => do
    let first ← grow d
    let others ← growAll ds
    return first :: others

end

/-- The tree that a dump grows into from nothing, unless an edit is refused. -/
def growTree (d : Dump) : Reading (Except Fault Tree) :=
  let grown := (grow d).run .empty
  ⟨grown.ignored,
    match grown.result with
    | .ok (.ok (root, t)) => if root.slot.isSome then .ok (.ok t) else .error .absentRoot
    | .ok (.error fault) => .ok (.error fault)
    | .error fault => .error fault⟩

end BranchTally.Dump
