import BranchTally.Flow.Derivation
import BranchTally.Tree.Basic

/-! How the counts of a tree rest on its trackers and on each other, one rule to a kind of count.
Control runs through a node's slots in their order; a tracker decides only where control may go two
ways. Every count is checked as soon as it is derived: none may be negative, and control cannot
reach the start of a node or complete it more often than it enters. -/

namespace BranchTally.Flow

/-- What counts are derived from. -/
structure Evidence where
  tree : Tree
  counters : Counters
  /-- The arithmetic that the counts are kept in. -/
  width : Width

namespace Evidence

variable (e : Evidence)

/-- The hits of the tracker bound to a node in a role, of which an unbound one has none. -/
def reading (n : Node) (role : Role) : Int :=
  match n.tracker? role with
  | some tracker => e.counters.hits e.width tracker
  | none => 0

def hits (id : NodeId) (role : Role) : Except Fault Int := return e.reading (← e.tree.node id) role

def nonNegative (quantity : Quantity) (node : Label) (n : Int) : Derivation Int :=
  if n < 0 then .fail (.negative quantity node n) else .done n

/-- A node for which counts are kept. -/
def place (id : NodeId) : Derivation Node :=
  match e.tree.nodes[id]? with
  | some n => .done n
  | none => .fail .unknownPlace

/-- The completion of the last of the nodes, or `otherwise` if there are none. -/
def lastCompletion (nodes : List NodeId) (otherwise : Int) : Derivation Int :=
  match nodes.getLast? with
  | some id => count (.completion id)
  | none => .done otherwise

/-- Adds the completions of the nodes to a total, one after the other. -/
def addCompletions (total : Int) : List NodeId → Derivation Int
  | [] => .done total
  | id :: ids => do addCompletions (e.width.add total (← count (.completion id))) ids

/-! ### Completion -/

/-- How often control falls through a node, by the counts of its slots. -/
def fallThrough (id : NodeId) (n : Node) : Derivation Int :=
  match n.construct with
  | .expression _ operands =>
    if (n.tracker? .completion).isSome then return e.reading n .completion
    else do lastCompletion operands (← count (.execution id))
  | .sequence _ statements => do lastCompletion statements (← count (.entry id))
  | .emptyBody => count (.entry id)
  | .conditional _ _ whenTrue whenFalse => do
    let held ← count (.completion (← e.tree.required id whenTrue "true branch"))
    let failed ← count (.completion (← e.tree.required id whenFalse "false branch"))
    return e.width.add held failed
  | .dispatch _ arms otherwise => do
    let unmatched ← count (.completion (← e.tree.required id otherwise "else branch"))
    e.addCompletions unmatched arms
  | .arm _ body => do count (.completion (← e.tree.required id body "body"))
  | .shortCircuit _ _ right => do
    let evaluated ← count (.completion (← e.tree.required id right "right operand"))
    return e.width.add evaluated (← count (.implicitBranch id))
  | .safeNavigation _ arguments => do
    let made ←
      if (n.tracker? .completion).isSome then pure (e.reading n .completion)
      else lastCompletion arguments (e.reading n .nonNil)
    return e.width.add (← count (.implicitBranch id)) made
  | .loop .. => count (.implicitBranch id)
  | .rescue none _ _ => count (.entry id)
  | .rescue (some watched) handlers otherwise => do
    let unharmed ← count (.completion (otherwise.getD watched))
    e.addCompletions unharmed handlers
  | .handler _ _ (some body) => count (.completion body)
  | .handler _ _ none => count (.execution id)
  | .ensure (some body) _ => count (.completion body)
  | .ensure none (some ensured) => count (.completion ensured)
  | .ensure none none => count (.entry id)

/-- What bounds the completion of a node. A handler arm is entered by the class of an exception,
which its entry only approximates, so that its execution takes the place of its entry. -/
def completionBound (id : NodeId) (n : Node) : Query :=
  if n.kind = .handler then .execution id else .entry id

def completionRule (id : NodeId) : Derivation Int := do
  let n ← e.place id
  let m ← nonNegative .completion (n.label id) (← e.fallThrough id n)
  let bound ← count (completionBound id n)
  if m > bound then .fail (.excess .completed (n.label id) m bound) else return m

/-! ### Execution -/

/-- How often control reaches the start of what a node does. -/
def arrival (id : NodeId) (n : Node) : Derivation Int :=
  match n.construct with
  | .rescue (some watched) _ _ => count (.completion watched)
  | .handler .. => return e.reading n .enteredBody
  | _ => count (.entry id)

def executionRule (id : NodeId) : Derivation Int := do
  let n ← e.place id
  let m ← nonNegative .execution (n.label id) (← e.arrival id n)
  if n.kind = .handler then return m
  else do
    let entered ← count (.entry id)
    if m > entered then .fail (.excess .executed (n.label id) m entered) else return m

/-! ### Entry -/

/-- The entry of a child that runs as soon as its left neighbour completes. -/
def inSequence (parent child : NodeId) : Derivation Int := do
  match ← e.tree.previousSibling child with
  | some previous => count (.completion previous)
  | none => count (.entry parent)

/-- How often control enters a child from within its parent. -/
def childEntry (parent : NodeId) (n : Node) (child : NodeId) : Derivation Int :=
  match n.construct with
  | .expression .. | .sequence .. => e.inSequence parent child
  | .emptyBody => .fail (.childlessParent (n.label parent))
  | .conditional _ condition whenTrue _ => do
    if some child = condition then count (.entry parent)
    else if some child = whenTrue then return e.reading n .truthy
    else do
      let decided ← count (.completion (← e.tree.required parent condition "condition"))
      return e.width.sub decided (e.reading n .truthy)
  | .dispatch subject _ otherwise => do
    if some child = subject then count (.entry parent)
    else if some child = otherwise then return e.reading n .elseEntered
    else
      match ← e.tree.previousSibling child with
      | none => count (.entry parent)
      | some previous =>
        if some previous = subject then count (.completion previous)
        else
          match (← e.tree.node previous).construct with
          | .arm _ body => do
            let tried ← count (.entry previous)
            let matched ← count (.entry (← e.tree.required previous body "body"))
            return e.width.sub tried matched
          | _ => e.tree.refuse previous
  | .arm _ body =>
    if some child = body then return e.reading n .enteredBody else e.inSequence parent child
  | .shortCircuit _ _ right =>
    if some child = right then return e.reading n .conditional else count (.entry parent)
  | .safeNavigation receiver _ => do
    if some child = receiver then count (.entry parent)
    else
      match ← e.tree.previousSibling child with
      | none => return e.reading n .nonNil
      | some previous =>
        if some previous = receiver then return e.reading n .nonNil
        else count (.completion previous)
  | .loop _ test _ body => do
    if some child = body then return e.reading n .body
    else do
      let body ← e.tree.required parent body "body"
      match test with
      | .after => count (.completion body)
      | .before => do
        let first ← count (.entry parent)
        return e.width.add first (← count (.completion body))
  | .rescue watched _ otherwise =>
    if some child = watched then count (.entry parent)
    else if some child = otherwise then count (.execution parent)
    else count (.handlerEntry child)
  | .handler exceptions _ _ =>
    if some child = exceptions then count (.entry parent) else return e.reading n .enteredBody
  | .ensure body ensured =>
    match body with
    | some body =>
      if some child = ensured then count (.entry body) else count (.entry parent)
    | none => count (.entry parent)

def entryRule (id : NodeId) : Derivation Int := do
  let n ← e.place id
  let m ← match n.parent with
    | none => pure (e.reading n .entry)
    | some parent => do e.childEntry parent (← e.tree.node parent) id
  nonNegative .entry (n.label id) m

/-! ### Handler arms and branches without a node -/

def handlerEntryRule (arm : NodeId) : Derivation Int := do
  let n ← e.tree.node arm
  match n.parent with
  | none => .fail (.outsideRescue (n.label arm))
  | some owner =>
    match (← e.tree.node owner).construct with
    | .rescue none _ _ => count (.entry owner)
    | .rescue (some watched) _ _ =>
      match ← e.tree.previousSibling arm with
      | none => .fail .unknownNode
      | some previous =>
        if previous = watched then do
          let entered ← count (.entry previous)
          let completed ← count (.completion previous)
          nonNegative .handlerEntry (n.label arm) (e.width.sub entered completed)
        else
          match (← e.tree.node previous).construct with
          | .handler exceptions _ _ => do
            let offered ← match exceptions with
              | some exceptions => count (.completion exceptions)
              | none => count (.entry previous)
            let taken ← count (.execution previous)
            nonNegative .handlerEntry (n.label arm) (e.width.sub offered taken)
          | _ => e.tree.refuse previous
    | _ => e.tree.refuse owner

def implicitBranchRule (id : NodeId) : Derivation Int := do
  let n ← e.tree.node id
  match n.construct with
  | .shortCircuit _ left right => do
    let decided ← count (.completion (← e.tree.required id left "left operand"))
    let evaluated ← count (.execution (← e.tree.required id right "right operand"))
    nonNegative .implicitBranch (n.label id) (e.width.sub decided evaluated)
  | .safeNavigation receiver _ =>
    if (n.tracker? .nilReceiver).isSome then return e.reading n .nilReceiver
    else do
      let received ← count (.completion (← e.tree.required id receiver "receiver"))
      nonNegative .implicitBranch (n.label id) (e.width.sub received (e.reading n .nonNil))
  | .loop _ test condition body => do
    let tested ← count (.completion (← e.tree.required id condition "condition"))
    let entered ← count (.entry (← e.tree.required id body "body"))
    -- The first pass through a loop that tests afterwards does not come from the condition.
    let repeated ← match test with
      | .after => do pure (e.width.sub entered (← count (.entry id)))
      | .before => pure entered
    nonNegative .implicitBranch (n.label id) (e.width.sub tested repeated)
  | _ => .fail (.noImplicitBranch (n.label id))

/-- How a count is derived. -/
def rule : Query → Derivation Int
  | .entry id => e.entryRule id
  | .execution id => e.executionRule id
  | .completion id => e.completionRule id
  | .handlerEntry arm => e.handlerEntryRule arm
  | .implicitBranch id => e.implicitBranchRule id

/-- Derives a count through at most this many counts that rest on each other. -/
def derive : Nat → Query → Except Fault Int
  | 0, _ => .error .circular
  | depth + 1, q => (e.rule q).run (derive depth)

/-- More counts than ever rest on each other in a tree that was laid out from a dump: there are
five to a node. -/
def depth : Nat := 8 * (e.tree.size + 1)

/-- The count, derived afresh with every count that it rests on. -/
def answer (q : Query) : Except Fault Int := e.derive e.depth q

end Evidence

end BranchTally.Flow
