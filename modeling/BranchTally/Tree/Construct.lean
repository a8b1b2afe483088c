import BranchTally.Span

/-! The kinds of syntax that a decorated tree distinguishes, each with its slots for other nodes;
the roles that a tracker can play at a node; and the keywords around the clauses of a construct. -/

namespace BranchTally

abbrev NodeId := Nat

/-- A place for a node, which may be absent. -/
abbrev Slot := Option NodeId

inductive Kind where
  | expression | sequence | emptyBody | conditional | dispatch | arm | shortCircuit
  | safeNavigation | loop | rescue | handler | ensure
  deriving DecidableEq, Repr

namespace Kind

def name : Kind → String
  | .expression => "expression"
  | .sequence => "sequence"
  | .emptyBody => "empty body"
  | .conditional => "conditional"
  | .dispatch => "dispatch"
  | .arm => "dispatch arm"
  | .shortCircuit => "short-circuit"
  | .safeNavigation => "safe navigation"
  | .loop => "loop"
  | .rescue => "rescue"
  | .handler => "handler arm"
  | .ensure => "ensure"

/-- Whether control may leave a construct of this kind by one of several branches. -/
def isBranching : Kind → Bool
  | .conditional | .dispatch | .shortCircuit | .safeNavigation | .loop => true
  | .expression | .sequence | .emptyBody | .arm | .rescue | .handler | .ensure => false

end Kind

/-! ### Forms of a construct -/

/-- How a conditional is written. -/
inductive Style where
  | plain | negated | chained | ternary
  deriving DecidableEq, Repr

namespace Style

def all : List Style := [.plain, .negated, .chained, .ternary]

def name : Style → String
  | .plain => "if"
  | .negated => "unless"
  | .chained => "elsif"
  | .ternary => "ternary"

def named? (s : String) : Option Style := all.find? (·.name = s)

end Style

inductive Connective where
  | conjunction | disjunction
  deriving DecidableEq, Repr

/-- Whether a loop goes on while its condition holds or until it does. -/
inductive Polarity where
  | whileTrue | untilTrue
  deriving DecidableEq, Repr

/-- Whether a loop tests its condition before or after its body. -/
inductive LoopTest where
  | before | after
  deriving DecidableEq, Repr

/-- What a node is, with its slots in the order of evaluation. -/
inductive Construct where
  | expression (type : String) (operands : List NodeId)
  /-- Statements, written between keywords of their own if `explicit`. -/
  | sequence (explicit : Bool) (statements : List NodeId)
  | emptyBody
  | conditional (style : Style) (condition whenTrue whenFalse : Slot)
  | dispatch (subject : Slot) (arms : List NodeId) (otherwise : Slot)
  | arm (patterns : List NodeId) (body : Slot)
  | shortCircuit (op : Connective) (left right : Slot)
  | safeNavigation (receiver : Slot) (arguments : List NodeId)
  | loop (polarity : Polarity) (test : LoopTest) (condition body : Slot)
  | rescue (watched : Slot) (handlers : List NodeId) (otherwise : Slot)
  | handler (exceptions assignment body : Slot)
  | ensure (body ensured : Slot)
  deriving DecidableEq, Repr

def Construct.kind : Construct → Kind
  | .expression .. => .expression
  | .sequence .. => .sequence
  | .emptyBody => .emptyBody
  | .conditional .. => .conditional
  | .dispatch .. => .dispatch
  | .arm .. => .arm
  | .shortCircuit .. => .shortCircuit
  | .safeNavigation .. => .safeNavigation
  | .loop .. => .loop
  | .rescue .. => .rescue
  | .handler .. => .handler
  | .ensure .. => .ensure

/-- The nodes in the slots of a construct, in the order of evaluation. -/
def Construct.present : Construct → List NodeId
  | .expression _ operands => operands
  | .sequence _ statements => statements
  | .emptyBody => []
  | .conditional _ condition whenTrue whenFalse =>
    condition.toList ++ whenTrue.toList ++ whenFalse.toList
  | .dispatch subject arms otherwise => subject.toList ++ arms ++ otherwise.toList
  | .arm patterns body => patterns ++ body.toList
  | .shortCircuit _ left right => left.toList ++ right.toList
  | .safeNavigation receiver arguments => receiver.toList ++ arguments
  | .loop _ _ condition body => condition.toList ++ body.toList
  | .rescue watched handlers otherwise => watched.toList ++ handlers ++ otherwise.toList
  | .handler exceptions assignment body =>
    exceptions.toList ++ assignment.toList ++ body.toList
  | .ensure body ensured => body.toList ++ ensured.toList

/-! ### Decorations -/

/-- What a tracker bound to a node counts. -/
inductive Role where
  /-- Control reached the root. -/
  | entry
  /-- An expression or a call finished. -/
  | completion
  /-- The condition of a conditional held. -/
  | truthy
  /-- The body of a dispatch arm or of a handler arm was entered. -/
  | enteredBody
  /-- No arm of a dispatch matched. -/
  | elseEntered
  /-- The right operand of a short-circuit was evaluated. -/
  | conditional
  /-- The body of a loop was entered. -/
  | body
  /-- The receiver of a safe navigation was there. -/
  | nonNil
  /-- The receiver of a safe navigation was missing. -/
  | nilReceiver
  deriving DecidableEq, Repr

namespace Role

def all : List Role :=
  [.entry, .completion, .truthy, .enteredBody, .elseEntered, .conditional, .body, .nonNil,
    .nilReceiver]

def name : Role → String
  | .entry => "entry"
  | .completion => "completion"
  | .truthy => "truthy"
  | .enteredBody => "entered_body"
  | .elseEntered => "else_entered"
  | .conditional => "conditional"
  | .body => "body"
  | .nonNil => "non_nil"
  | .nilReceiver => "nil_receiver"

def named? (s : String) : Option Role := all.find? (·.name = s)

end Role

/-- A keyword before, between or after the clauses of a construct. -/
inductive Keyword where
  | opening | alternative | closing
  deriving DecidableEq, Repr

namespace Keyword

def all : List Keyword := [.opening, .alternative, .closing]

def name : Keyword → String
  | .opening => "begin"
  | .alternative => "else"
  | .closing => "end"

def named? (s : String) : Option Keyword := all.find? (·.name = s)

end Keyword

end BranchTally
