import BranchTally.Tree.Basic

/-! The nodes below the root, parents before children and children in their order. -/

namespace BranchTally.Tree

/-- The children of a node, of which a node outside the tree has none. -/
def childrenOf (t : Tree) (id : NodeId) : List NodeId :=
  match t.nodes[id]? with
  | some n => n.children
  | none => []

/-- A node and what lies below it, down to the given number of levels. -/
def subtree (t : Tree) : Nat → NodeId → List NodeId
  | 0, _ => []
  | levels + 1, id => id :: (t.childrenOf id).flatMap (t.subtree levels)

/-- All nodes that can be reached from the root; no path is longer than the number of nodes. -/
def preorder (t : Tree) : List NodeId :=
  if t.isEmpty then [] else t.subtree t.size 0

/-- The nodes that a walk over pending nodes visits in at most so many rounds. A round visits the
first of the pending nodes and puts its children in front of the others. -/
def walk (t : Tree) : Nat → List NodeId → List NodeId
  | 0, _ => []
  | _ + 1, [] => []
  | rounds + 1, id :: pending => id :: t.walk rounds (t.childrenOf id ++ pending)

end BranchTally.Tree
