import BranchTally.Log
import BranchTally.Runs.Basic

/-! The runs of a tree in words: a line for each branching construct, and a warning for each node
that was demoted. What was written before a fault stays written. -/

namespace BranchTally.Runs

/-- A text in the making, and whether it could be finished. -/
structure Listing (α : Type) where
  text : String
  result : Except Fault α

namespace Listing

instance : Monad Listing where
  pure a := ⟨"", .ok a⟩
  bind l f :=
    match l.result with
    | .ok a => ⟨l.text ++ (f a).text, (f a).result⟩
    | .error fault => ⟨l.text, .error fault⟩

def write (text : String) : Listing Unit := ⟨text, .ok ()⟩

instance : MonadLift (Except Fault) Listing := ⟨fun r => ⟨"", r⟩⟩

end Listing

/-- The line of a node, which is empty unless the node branches. -/
def listNode (t : Tree) (raw demoted : Runs) (id : NodeId) : Listing Unit := do
  let n ← t.node id
  if n.kind.isBranching then
    let place := match n.span with
      | some span => " " ++ span.start.text
      | none => ""
    .write (n.kind.name ++ place)
    let before ← raw.at? id
    .write (" " ++ toString before)
    let after ← demoted.at? id
    .write (" " ++ toString after ++ "\n")

def listAll (t : Tree) (raw demoted : Runs) : List NodeId → Listing Unit
  | [] => return ()
  | id :: ids => do
    listNode t raw demoted id
    listAll t raw demoted ids

/-- One line for each branching construct: its kind, where it starts, and its runs before and
after demotion. -/
def list (t : Tree) (raw demoted : Runs) : Listing Unit := listAll t raw demoted t.preorder

/-- The warning for a node that was demoted; a node that was not has none. -/
def warnNode (t : Tree) (unit : String) (raw demoted : Runs) (id : NodeId) : Listing Bool := do
  let before ← raw.at? id
  let after ← demoted.at? id
  if before = after then return false
  else
    let n ← t.node id
    let line := match n.span with
      | some span => toString span.start.line
      | none => ""
    .write (unit ++ ":" ++ line ++ ": warning: " ++ n.kind.name ++ " partially covered (runs " ++
      toString before ++ ", worst branch " ++ toString after ++ ")\n")
    return true

def warnAll (t : Tree) (unit : String) (raw demoted : Runs) : List NodeId → Listing Nat
  | [] => return 0
  | id :: ids => do
    let warned ← warnNode t unit raw demoted id
    let others ← warnAll t unit raw demoted ids
    return others + warned.toNat

/-- Warns of every node that was demoted, and counts them. -/
def warn (t : Tree) (unit : String) (raw demoted : Runs) : Listing Nat :=
  warnAll t unit raw demoted t.preorder

/-- What there is to say after warning. -/
def announcement (partiallyCovered : Nat) : Message :=
  ⟨.debug, toString partiallyCovered ++ " partially covered branching constructs"⟩

end BranchTally.Runs
