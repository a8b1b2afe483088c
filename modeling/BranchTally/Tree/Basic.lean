import BranchTally.Counters
import BranchTally.Fault

/-! A decorated syntax tree as a numbered store of nodes, which refer to each other by number. The
root is number zero. A node knows its parent and its place among the parent's children, so that
its neighbours are found from both. -/

namespace BranchTally

structure Node where
  construct : Construct
  /-- Where the node is written; absent for a slot with no syntax at all. -/
  span : Option Span
  parent : Slot
  /-- The place among the children of the parent. -/
  index : Nat
  children : List NodeId
  /-- The trackers bound to the node, the latest binding first. -/
  trackers : List (Role × TrackerId)
  /-- The keywords of the node, the latest first. -/
  keywords : List (Keyword × Span)
  deriving DecidableEq, Repr

namespace Node

/-- A node before anything is known about it. -/
def blank : Node := ⟨.emptyBody, none, none, 0, [], [], []⟩

instance : Inhabited Node := ⟨blank⟩

def kind (n : Node) : Kind := n.construct.kind

def tracker? (n : Node) (role : Role) : Option TrackerId := n.trackers.lookup role

def keyword? (n : Node) (key : Keyword) : Option Span := n.keywords.lookup key

/-- The trackers bound to the node, in the order of their roles. -/
def boundTrackers (n : Node) : List (Role × TrackerId) :=
  Role.all.filterMap fun role => (n.tracker? role).map (role, ·)

/-- The keywords of the node, in the order of their places. -/
def writtenKeywords (n : Node) : List (Keyword × Span) :=
  Keyword.all.filterMap fun key => (n.keyword? key).map (key, ·)

def label (n : Node) (id : NodeId) : Label := ⟨n.kind, id, n.span⟩

end Node

structure Tree where
  nodes : Array Node
  deriving DecidableEq, Repr

namespace Tree

def empty : Tree := ⟨#[]⟩

instance : Inhabited Tree := ⟨empty⟩

def size (t : Tree) : Nat := t.nodes.size

def isEmpty (t : Tree) : Bool := t.nodes.isEmpty

def root? (t : Tree) : Slot := if t.isEmpty then none else some 0

def node (t : Tree) (id : NodeId) : Except Fault Node :=
  match t.nodes[id]? with
  | some n => .ok n
  | none => .error .unknownNode

/-! ### Reading a node -/

def kind (t : Tree) (id : NodeId) : Except Fault Kind := return (← t.node id).kind

def label (t : Tree) (id : NodeId) : Except Fault Label := return (← t.node id).label id

/-- What identifies the node in messages. -/
def describe (t : Tree) (id : NodeId) : Except Fault String := return (← t.label id).text

def children (t : Tree) (id : NodeId) : Except Fault (List NodeId) := return (← t.node id).children

def index (t : Tree) (id : NodeId) : Except Fault Nat := return (← t.node id).index

def parent (t : Tree) (id : NodeId) : Except Fault Slot := return (← t.node id).parent

def previousSibling (t : Tree) (id : NodeId) : Except Fault Slot := do
  let n ← t.node id
  match n.parent, n.index with
  | some p, i + 1 => return (← t.children p)[i]?
  | _, _ => return none

def nextSibling (t : Tree) (id : NodeId) : Except Fault Slot := do
  let n ← t.node id
  match n.parent with
  | some p => return (← t.children p)[n.index + 1]?
  | none => return none

def tracker? (t : Tree) (id : NodeId) (role : Role) : Except Fault (Option TrackerId) :=
  return (← t.node id).tracker? role

def keyword? (t : Tree) (id : NodeId) (key : Keyword) : Except Fault (Option Span) :=
  return (← t.node id).keyword? key

/-- Where the node is written. -/
def span (t : Tree) (id : NodeId) : Except Fault Span := do
  let n ← t.node id
  match n.span with
  | some s => return s
  | none => throw (.noSpan (n.label id))

/-- The node in a slot that its owner cannot do without. -/
def required (t : Tree) (owner : NodeId) (slot : Slot) (name : String) : Except Fault NodeId :=
  match slot with
  | some id => .ok id
  | none => do throw (.missing (← t.label owner) name)

/-- Whether a slot holds a body with nothing in it. -/
def isEmptyBody (t : Tree) : Slot → Except Fault Bool
  | some id => return (← t.kind id) = .emptyBody
  | none => return false

/-- Refuses a node whose kind is none that its place allows. -/
def refuse {α : Type} (t : Tree) (id : NodeId) : Except Fault α := do
  throw (.unexpectedKind (← t.label id))

/-- The type of an expression. -/
def expressionType (t : Tree) (id : NodeId) : Except Fault String := do
  match (← t.node id).construct with
  | .expression type _ => return type
  | _ => t.refuse id

/-- Whether a sequence is written between keywords of its own. -/
def isExplicit (t : Tree) (id : NodeId) : Except Fault Bool := do
  match (← t.node id).construct with
  | .sequence explicit _ => return explicit
  | _ => t.refuse id

end Tree

end BranchTally
