import BranchTally.Tree.Basic

/-! Building a tree by hand: reserving nodes, filling them in and giving them children. A node may
be adopted again; its earlier parent keeps it among its children, and the node itself names the
later one. -/

namespace BranchTally.Tree

/-- Reserves the next number for a node that is still blank. -/
def reserve (t : Tree) : NodeId × Tree := (t.size, ⟨t.nodes.push .blank⟩)

def modify (t : Tree) (id : NodeId) (f : Node → Node) : Except Fault Tree :=
  if id < t.size then .ok ⟨t.nodes.modify id f⟩ else .error .unknownNode

def setConstruct (t : Tree) (id : NodeId) (c : Construct) : Except Fault Tree :=
  t.modify id fun n => { n with construct := c }

def setSpan (t : Tree) (id : NodeId) (s : Option Span) : Except Fault Tree :=
  t.modify id fun n => { n with span := s }

def bindTracker (t : Tree) (id : NodeId) (role : Role) (tracker : TrackerId) : Except Fault Tree :=
  t.modify id fun n => { n with trackers := (role, tracker) :: n.trackers }

def placeKeyword (t : Tree) (id : NodeId) (key : Keyword) (s : Span) : Except Fault Tree :=
  t.modify id fun n => { n with keywords := (key, s) :: n.keywords }

/-- Appends a child to those of a node. -/
def adoptOne (t : Tree) (parent child : NodeId) : Except Fault Tree := do
  let place := (← t.children parent).length
  let t ← t.modify child fun n => { n with parent := some parent, index := place }
  t.modify parent fun n => { n with children := n.children ++ [child] }

/-- Appends children in turn, passing over absent ones and stopping at the first that is not in
the tree; what was adopted before it stays so. -/
def adoptAll (t : Tree) (parent : NodeId) : List Slot → Tree × Except Fault Unit
  | [] => (t, .ok ())
  | none :: slots => adoptAll t parent slots
  | some child :: slots =>
    match t.adoptOne parent child with
    | .ok t => adoptAll t parent slots
    | .error fault => (t, .error fault)

/-- Gives a node these children in the place of those it had. -/
def adopt (t : Tree) (parent : NodeId) (slots : List Slot) : Tree × Except Fault Unit :=
  match t.modify parent fun n => { n with children := [] } with
  | .ok t => adoptAll t parent slots
  | .error fault => (t, .error fault)

end BranchTally.Tree
