import BranchTally.Report.Plan

/-! The records of a report: one for each construct that branches, with the number of times that
control took each branch. Places are numbered from one in the order of the report, a condition
before its branches. A report prints with one record to a line. -/

namespace BranchTally.Report

/-- A construct whose branches have been placed and counted. -/
structure Tallied where
  node : NodeId
  tag : Tag
  span : Span
  branches : List (Branch × Int)
  deriving Repr

structure Record where
  node : NodeId
  condition : Descriptor
  branches : List (Descriptor × Int)
  deriving DecidableEq, Repr

/-- Numbers the places of the records, starting with `first`. -/
def number (first : Nat) : List Tallied → List Record
  | [] => []
  | t :: ts =>
    let branches := (t.branches.zipIdx (first + 1)).map fun ((b, count), place) =>
      (⟨b.tag, place, b.span⟩, count)
    ⟨t.node, ⟨t.tag, first, t.span⟩, branches⟩ ::
      number (first + 1 + t.branches.length) ts

/-- The number of places that records name. -/
def places (records : List Record) : Nat :=
  records.foldr (fun r n => r.branches.length + 1 + n) 0

/-! ### Printing -/

def entryText (entry : Descriptor × Int) : String :=
  entry.1.text ++ "=>" ++ toString entry.2

def Record.text (r : Record) : String :=
  r.condition.text ++ "=>\x7b" ++ ", ".intercalate (r.branches.map entryText) ++ "\x7d"

def text (records : List Record) : String :=
  "\x7b" ++ ",\n ".intercalate (records.map Record.text) ++ "\x7d"

end BranchTally.Report
