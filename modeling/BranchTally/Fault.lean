import BranchTally.Tree.Construct

/-! Why a derivation over a tree gives no answer. Either the tree lacks something that its kinds of
node promise, or the counts contradict each other, or a node was asked for that is not there. Each
cause is a case of its own, and one function states them all in words. -/

namespace BranchTally

/-- What identifies a node to a reader. -/
structure Label where
  kind : Kind
  id : NodeId
  span : Option Span
  deriving DecidableEq, Repr

def Label.text (l : Label) : String :=
  l.kind.name ++ " #" ++ toString l.id ++
    match l.span with
    | some s => " at " ++ s.text
    | none => ""

/-- A count that must not be negative. -/
inductive Quantity where
  | entry | execution | completion | handlerEntry | implicitBranch
  deriving DecidableEq, Repr

def Quantity.name : Quantity → String
  | .entry => "flow entry"
  | .execution => "execution"
  | .completion => "flow completion"
  | .handlerEntry => "handler entry"
  | .implicitBranch => "implicit branch"

/-- What control cannot do more often than it enters. -/
inductive Passage where
  | executed | completed
  deriving DecidableEq, Repr

def Passage.name : Passage → String
  | .executed => "executed"
  | .completed => "completed"

inductive Fault where
  | noSpan (node : Label)
  | missing (owner : Label) (slot : String)
  | unexpectedKind (node : Label)
  | childlessParent (node : Label)
  | outsideRescue (arm : Label)
  | noImplicitBranch (node : Label)
  | negative (quantity : Quantity) (node : Label) (count : Int)
  | excess (passage : Passage) (node : Label) (count bound : Int)
  /-- The tree has no such node. -/
  | unknownNode
  /-- The counts kept by node have no place for such a node. -/
  | unknownPlace
  /-- The derivation goes round in a circle. -/
  | circular
  deriving DecidableEq, Repr

namespace Fault

inductive Category where
  | malformed | inconsistent | outOfRange
  deriving DecidableEq, Repr

def category : Fault → Category
  | .noSpan .. | .missing .. | .unexpectedKind .. | .childlessParent .. | .outsideRescue ..
  | .noImplicitBranch .. | .circular => .malformed
  | .negative .. | .excess .. => .inconsistent
  | .unknownNode | .unknownPlace => .outOfRange

/-- The fault in words, without its category. -/
def detail : Fault → String
  | .noSpan node => node.text ++ " has no source range"
  | .missing owner slot => owner.text ++ " is missing its " ++ slot
  | .unexpectedKind node => node.text ++ " has an unexpected kind"
  | .childlessParent node => node.text ++ " cannot have children"
  | .outsideRescue arm => arm.text ++ " is outside any rescue"
  | .noImplicitBranch node => node.text ++ " has no implicit branch"
  | .negative quantity node count =>
    quantity.name ++ " count of " ++ node.text ++ " is " ++ toString count
  | .excess passage node count bound =>
    node.text ++ " " ++ passage.name ++ " " ++ toString count ++ " times but was entered " ++
      toString bound ++ " times"
  | .unknownNode => "node id out of range"
  | .unknownPlace => ""
  | .circular => "a count depends on itself"

def message (f : Fault) : String :=
  match f.category with
  | .malformed => "malformed tree: " ++ f.detail
  | .inconsistent => "inconsistent counts: " ++ f.detail
  | .outOfRange => f.detail

end Fault

end BranchTally
