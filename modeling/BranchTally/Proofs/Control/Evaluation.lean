import BranchTally.Flow.Derivation
import BranchTally.Tree.Basic

/-! What evaluating a tree does. Control starts at a node, enters its children one at a time and goes
on from the way each of them is left, until it leaves the node itself. On its way it fires trackers.
An evaluation leaves a trail of all its steps; what a count stands for is how often a step of some
sort is on the trail. Dispatches and ensure clauses are not evaluated here. -/

namespace BranchTally.Control

open BranchTally.Flow

/-! ### Going on in a construct -/

/-- How control leaves a node. -/
inductive Outcome where
  | completed
  | raised
  /-- A handler arm passed on the exception that it was offered. -/
  | declined
  deriving DecidableEq, Repr

/-- Where control stands in a node. -/
inductive Point where
  | start
  | after (child : NodeId) (outcome : Outcome)
  deriving DecidableEq, Repr

/-- Where control goes from there. -/
inductive Move where
  | enter (child : NodeId)
  | leave (outcome : Outcome)
  deriving DecidableEq, Repr

/-- From an origin control goes through nodes in their order, from each to the next if it is left
with a given outcome. After the last there is no next one. -/
inductive Along (origin : Point) (o : Outcome) (ids : List NodeId) : Point → Slot → Prop where
  | first {next : Slot} (h : ids[0]? = next) : Along origin o ids origin next
  | onward {k : Nat} {id : NodeId} {next : Slot} (hk : ids[k]? = some id) (h : ids[k + 1]? = next) :
    Along origin o ids (.after id o) next

/-- The child whose exceptions a construct does not let through. -/
def guarded : Construct → Slot
  | .rescue watched _ _ => watched
  | _ => none

/-- Where a handler arm knows whether it takes the exception. -/
def offered : Slot → Point
  | some exceptions => .after exceptions .completed
  | none => .start

/-- What fires where control stands, if it has just found a receiver. -/
def found (receiver : NodeId) (p : Point) : List Role :=
  if p = .after receiver .completed then [.nonNil] else []

@[simp] theorem mem_found {receiver : NodeId} {p : Point} {role : Role} :
    role ∈ found receiver p ↔ p = .after receiver .completed ∧ role = .nonNil := by
  unfold found
  split <;> simp [*]

/-- Control goes on in a construct and fires trackers in these roles. If the construct `raises`, an
expression or a call may raise after its operands; all other exceptions come out of a child. -/
inductive Goes (raises : Prop) : Construct → Point → List Role → Move → Prop where
  | operand {type : String} {operands : List NodeId} {p : Point} {c : NodeId}
    (h : Along .start .completed operands p (some c)) :
    Goes raises (.expression type operands) p [] (.enter c)
  | computed {type : String} {operands : List NodeId} {p : Point}
    (h : Along .start .completed operands p none) :
    Goes raises (.expression type operands) p [.completion] (.leave .completed)
  | failed {type : String} {operands : List NodeId} {p : Point} (hr : raises)
    (h : Along .start .completed operands p none) :
    Goes raises (.expression type operands) p [] (.leave .raised)
  | statement {explicit : Bool} {statements : List NodeId} {p : Point} {c : NodeId}
    (h : Along .start .completed statements p (some c)) :
    Goes raises (.sequence explicit statements) p [] (.enter c)
  | finished {explicit : Bool} {statements : List NodeId} {p : Point}
    (h : Along .start .completed statements p none) :
    Goes raises (.sequence explicit statements) p [] (.leave .completed)
  | nothing : Goes raises .emptyBody .start [] (.leave .completed)
  | asked {style : Style} {c : NodeId} {a b : Slot} :
    Goes raises (.conditional style (some c) a b) .start [] (.enter c)
  | held {style : Style} {c a : NodeId} {b : Slot} :
    Goes raises (.conditional style (some c) (some a) b) (.after c .completed) [.truthy] (.enter a)
  | refuted {style : Style} {c b : NodeId} {a : Slot} :
    Goes raises (.conditional style (some c) a (some b)) (.after c .completed) [] (.enter b)
  | heldOver {style : Style} {a : NodeId} {c b : Slot} :
    Goes raises (.conditional style c (some a) b) (.after a .completed) [] (.leave .completed)
  | refutedOver {style : Style} {b : NodeId} {c a : Slot} :
    Goes raises (.conditional style c a (some b)) (.after b .completed) [] (.leave .completed)
  | left {op : Connective} {l : NodeId} {r : Slot} :
    Goes raises (.shortCircuit op (some l) r) .start [] (.enter l)
  | decided {op : Connective} {l : NodeId} {r : Slot} :
    Goes raises (.shortCircuit op (some l) r) (.after l .completed) [] (.leave .completed)
  | undecided {op : Connective} {l r : NodeId} :
    Goes raises (.shortCircuit op (some l) (some r)) (.after l .completed) [.conditional] (.enter r)
  | right {op : Connective} {l : Slot} {r : NodeId} :
    Goes raises (.shortCircuit op l (some r)) (.after r .completed) [] (.leave .completed)
  | receiver {r : NodeId} {arguments : List NodeId} :
    Goes raises (.safeNavigation (some r) arguments) .start [] (.enter r)
  | missing {r : NodeId} {arguments : List NodeId} :
    Goes raises (.safeNavigation (some r) arguments) (.after r .completed) [.nilReceiver]
      (.leave .completed)
  | argument {r c : NodeId} {arguments : List NodeId} {p : Point}
    (h : Along (.after r .completed) .completed arguments p (some c)) :
    Goes raises (.safeNavigation (some r) arguments) p (found r p) (.enter c)
  | called {r : NodeId} {arguments : List NodeId} {p : Point}
    (h : Along (.after r .completed) .completed arguments p none) :
    Goes raises (.safeNavigation (some r) arguments) p (found r p ++ [.completion])
      (.leave .completed)
  | callFailed {r : NodeId} {arguments : List NodeId} {p : Point} (hr : raises)
    (h : Along (.after r .completed) .completed arguments p none) :
    Goes raises (.safeNavigation (some r) arguments) p (found r p) (.leave .raised)
  | firstTest {polarity : Polarity} {c : NodeId} {b : Slot} :
    Goes raises (.loop polarity .before (some c) b) .start [] (.enter c)
  | firstPass {polarity : Polarity} {c : Slot} {b : NodeId} :
    Goes raises (.loop polarity .after c (some b)) .start [.body] (.enter b)
  | again {polarity : Polarity} {test : LoopTest} {c b : NodeId} :
    Goes raises (.loop polarity test (some c) (some b)) (.after c .completed) [.body] (.enter b)
  | passed {polarity : Polarity} {test : LoopTest} {c b : NodeId} :
    Goes raises (.loop polarity test (some c) (some b)) (.after b .completed) [] (.enter c)
  | exit {polarity : Polarity} {test : LoopTest} {c : NodeId} {b : Slot} :
    Goes raises (.loop polarity test (some c) b) (.after c .completed) [] (.leave .completed)
  | watch {w : NodeId} {handlers : List NodeId} {otherwise : Slot} :
    Goes raises (.rescue (some w) handlers otherwise) .start [] (.enter w)
  | unharmed {w x : NodeId} {handlers : List NodeId} :
    Goes raises (.rescue (some w) handlers (some x)) (.after w .completed) [] (.enter x)
  | concluded {w : NodeId} {handlers : List NodeId} {otherwise : Slot} :
    Goes raises (.rescue (some w) handlers otherwise) (.after (otherwise.getD w) .completed) []
      (.leave .completed)
  | offer {w c : NodeId} {handlers : List NodeId} {otherwise : Slot} {p : Point}
    (h : Along (.after w .raised) .declined handlers p (some c)) :
    Goes raises (.rescue (some w) handlers otherwise) p [] (.enter c)
  | unhandled {w : NodeId} {handlers : List NodeId} {otherwise : Slot} {p : Point}
    (h : Along (.after w .raised) .declined handlers p none) :
    Goes raises (.rescue (some w) handlers otherwise) p [] (.leave .raised)
  | handled {w otherwise : Slot} {x : NodeId} {handlers : List NodeId} (hx : x ∈ handlers) :
    Goes raises (.rescue w handlers otherwise) (.after x .completed) [] (.leave .completed)
  | exceptions {x : NodeId} {assignment body : Slot} :
    Goes raises (.handler (some x) assignment body) .start [] (.enter x)
  | decline {exceptions assignment body : Slot} :
    Goes raises (.handler exceptions assignment body) (offered exceptions) [] (.leave .declined)
  | accept {exceptions assignment : Slot} {b : NodeId} :
    Goes raises (.handler exceptions assignment (some b)) (offered exceptions) [.enteredBody]
      (.enter b)
  | ignore {exceptions assignment : Slot} :
    Goes raises (.handler exceptions assignment none) (offered exceptions) [.enteredBody]
      (.leave .completed)
  | recovered {exceptions assignment : Slot} {b : NodeId} :
    Goes raises (.handler exceptions assignment (some b)) (.after b .completed) []
      (.leave .completed)
  | through {construct : Construct} {c : NodeId} (hc : c ∈ construct.present)
    (hg : guarded construct ≠ some c) :
    Goes raises construct (.after c .raised) [] (.leave .raised)

/-! ### Evaluations -/

/-- One step of control in a node. -/
structure Transition where
  node : NodeId
  point : Point
  fired : List Role
  move : Move
  deriving DecidableEq, Repr

/-- Control goes on in a node. What raises by itself has a tracker for completion, since nothing
else would tell. -/
def Passes (n : Node) : Point → List Role → Move → Prop :=
  Goes (n.tracker? .completion).isSome n.construct

def Transition.Valid (t : Tree) (tr : Transition) : Prop :=
  ∃ n, t.nodes[tr.node]? = some n ∧ Passes n tr.point tr.fired tr.move

/-- From a point in a node control comes to leave the node, on this trail. -/
inductive Evaluates (t : Tree) : NodeId → Point → Outcome → List Transition → Prop where
  | leave {i : NodeId} {p : Point} {fired : List Role} {o : Outcome}
    (h : Transition.Valid t ⟨i, p, fired, .leave o⟩) :
    Evaluates t i p o [⟨i, p, fired, .leave o⟩]
  | enter {i c : NodeId} {p : Point} {fired : List Role} {o o' : Outcome}
    {inside others : List Transition} (h : Transition.Valid t ⟨i, p, fired, .enter c⟩)
    (hc : Evaluates t c .start o' inside) (ho : Evaluates t i (.after c o') o others) :
    Evaluates t i p o (⟨i, p, fired, .enter c⟩ :: (inside ++ others))

/-- A program is run any number of times. -/
inductive Runs (t : Tree) : List Transition → Prop where
  | never : Runs t []
  | again {o : Outcome} {trail trails : List Transition} (h : Evaluates t 0 .start o trail)
    (hs : Runs t trails) : Runs t (trail ++ trails)

/-! ### Counting steps -/

/-- A sort of step. -/
inductive Event where
  | begun
  | entered (child : NodeId)
  | resumed (children : List NodeId) (outcome : Outcome)
  | left (outcome : Outcome)
  | fired (role : Role)
  | went (point : Point) (move : Move)
  deriving DecidableEq, Repr

/-- The roles that a step fires: where a node starts, that of its entry too. -/
def Transition.roles (tr : Transition) : List Role :=
  if tr.point = .start then .entry :: tr.fired else tr.fired

@[simp] theorem Transition.mem_roles {tr : Transition} {role : Role} :
    role ∈ tr.roles ↔ tr.point = .start ∧ role = .entry ∨ role ∈ tr.fired := by
  unfold roles
  split <;> simp [*]

def Transition.shows (tr : Transition) : Event → Bool
  | .begun => tr.point = .start
  | .entered child => tr.move = .enter child
  | .resumed children outcome => children.any fun child => tr.point = .after child outcome
  | .left outcome => tr.move = .leave outcome
  | .fired role => role ∈ tr.roles
  | .went point move => tr.point = point ∧ tr.move = move

/-- How often a node shows an event. -/
def times (trail : List Transition) (i : NodeId) (event : Event) : Nat :=
  trail.countP fun tr => tr.node = i && tr.shows event

/-- The trackers that a step gives a hit. -/
def Transition.hits (t : Tree) (tr : Transition) : List TrackerId :=
  match t.nodes[tr.node]? with
  | some n => tr.roles.filterMap n.tracker?
  | none => []

/-- Every bound tracker has counted its hits. -/
def Recorded (t : Tree) (trail : List Transition) (counters : Counters) : Prop :=
  ∀ {i : NodeId} {n : Node} {role : Role} {tracker : TrackerId}, t.nodes[i]? = some n →
    n.tracker? role = some tracker → counters.total tracker = (trail.flatMap (·.hits t)).count tracker

/-- Counters that are given the hits one by one. -/
def record (t : Tree) (trail : List Transition) : Counters :=
  (trail.flatMap (·.hits t)).foldr (fun tracker counters => counters.add tracker 1) .empty

/-! ### What counts stand for -/

/-- Reaching the start of what a construct does. -/
def execution (i : NodeId) : Construct → NodeId × Event
  | .rescue (some watched) _ _ => (watched, .left .completed)
  | .handler .. => (i, .fired .enteredBody)
  | _ => (i, .begun)

/-- Taking the branch of a construct that has no node. -/
def bypass (i : NodeId) : Construct → Option (NodeId × Event)
  | .shortCircuit _ (some left) _ => some (i, .went (.after left .completed) (.leave .completed))
  | .safeNavigation .. => some (i, .fired .nilReceiver)
  | .loop .. => some (i, .left .completed)
  | _ => none

/-- The event that a count stands for, and the node that shows it. -/
def observed (t : Tree) : Query → Option (NodeId × Event)
  | .entry id => t.nodes[id]?.map fun _ => (id, .begun)
  | .execution id => t.nodes[id]?.map fun n => execution id n.construct
  | .completion id => t.nodes[id]?.map fun _ => (id, .left .completed)
  | .handlerEntry arm => t.nodes[arm]?.bind fun n =>
    if n.kind = .handler then some (arm, .begun) else none
  | .implicitBranch id => t.nodes[id]?.bind fun n => bypass id n.construct

/-! ### Trees that tell -/

/-- The constructs that are evaluated, with the slots that they need. -/
inductive Complete : Construct → Prop where
  | expression {type : String} {operands : List NodeId} : Complete (.expression type operands)
  | sequence {explicit : Bool} {statements : List NodeId} :
    Complete (.sequence explicit statements)
  | emptyBody : Complete .emptyBody
  | conditional {style : Style} {c a b : NodeId} :
    Complete (.conditional style (some c) (some a) (some b))
  | shortCircuit {op : Connective} {l r : NodeId} : Complete (.shortCircuit op (some l) (some r))
  | safeNavigation {r : NodeId} {arguments : List NodeId} :
    Complete (.safeNavigation (some r) arguments)
  | loop {polarity : Polarity} {test : LoopTest} {c b : NodeId} :
    Complete (.loop polarity test (some c) (some b))
  | rescue {w : NodeId} {handlers : List NodeId} {otherwise : Slot} :
    Complete (.rescue (some w) handlers otherwise)
  | handler {exceptions body : Slot} : Complete (.handler exceptions none body)

/-- The role that tells which way control goes in a construct. -/
def marker : Construct → Option Role
  | .conditional .. => some .truthy
  | .shortCircuit .. => some .conditional
  | .loop .. => some .body
  | .safeNavigation .. => some .nonNil
  | .handler .. => some .enteredBody
  | _ => none

/-- Every construct can be evaluated, and trackers of their own tell which way it goes. -/
structure Instrumented (t : Tree) : Prop where
  complete : ∀ {i : NodeId} {n : Node}, t.nodes[i]? = some n → Complete n.construct
  handler : ∀ {i : NodeId} {n : Node}, t.nodes[i]? = some n → n.kind = .handler →
    ∃ (p : NodeId) (m : Node) (watched otherwise : Slot) (handlers : List NodeId),
      n.parent = some p ∧ t.nodes[p]? = some m ∧
      m.construct = .rescue watched handlers otherwise ∧ i ∈ handlers
  /-- A rescue does not execute as soon as it is entered. -/
  right : ∀ {i r : NodeId} {n m : Node} {op : Connective} {l : Slot}, t.nodes[i]? = some n →
    n.construct = .shortCircuit op l (some r) → t.nodes[r]? = some m → m.kind ≠ .rescue
  entry : ∀ {n : Node}, t.nodes[0]? = some n → (n.tracker? .entry).isSome
  marked : ∀ {i : NodeId} {n : Node} {role : Role}, t.nodes[i]? = some n →
    marker n.construct = some role → (n.tracker? role).isSome
  distinct : ∀ {i j : NodeId} {n m : Node} {r s : Role} {tracker : TrackerId},
    t.nodes[i]? = some n → n.tracker? r = some tracker → t.nodes[j]? = some m →
    m.tracker? s = some tracker → i = j ∧ r = s

end BranchTally.Control
