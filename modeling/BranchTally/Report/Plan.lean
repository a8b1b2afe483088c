import BranchTally.Report.Descriptor
import BranchTally.Report.Location
import BranchTally.Flow.Rules

/-! What a branching construct reports, before anything is counted: a condition, and its branches
in the order of the report, each with a tag, a place and the count that belongs to it. The places
come from the tree and the program text alone. -/

namespace BranchTally.Report

open BranchTally.Flow

/-- The count that belongs to a branch. -/
inductive Tally where
  | derived (q : Query)
  /-- The hits of a tracker of the construct itself. -/
  | hits (role : Role)
  deriving DecidableEq, Repr

structure Branch where
  tag : Tag
  span : Span
  tally : Tally
  deriving DecidableEq, Repr

/-- A branch that cannot be placed spoils the report only when its turn has come. -/
structure Plan where
  label : Label
  tag : Tag
  span : Span
  branches : List (Except Fault Branch)

/-- A branch that is counted by how often control reaches a node. -/
def reached (tag : Tag) (span : Except Fault Span) (id : NodeId) : Except Fault Branch :=
  return ⟨tag, ← span, .derived (.execution id)⟩

namespace Site

variable (s : Site)

/-! ### Conditionals -/

/-- Where the clauses of a conditional are reported if they are empty. A ternary cannot have an
empty clause, and a modifier has no keywords. -/
def clauseMarkers (id : NodeId) (n : Node) (style : Style) :
    Except Fault (Option Span × Option Span) := do
  if style = .ternary then return (none, none)
  else
    let closing ← s.tree.keyword? (← s.outermost id) .closing
    let last := closing.map fun k : Span => Span.emptyAt k.start
    let alternative := n.keyword? .alternative
    let first :=
      match n.keyword? .opening with
      | some opening => some (s.source.contentMarker opening)
      | none => alternative.map fun k : Span => Span.emptyAt k.start
    return (first.or last, (alternative.map s.source.contentMarker).or last)

def planClause (id : NodeId) (tag : Tag) (branch : NodeId)
    (marker : Except Fault (Option Span)) : Except Fault Branch :=
  reached tag (do s.resolve id (some branch) (← marker)) branch

def planConditional (id : NodeId) (n : Node) (style : Style) (condition whenTrue whenFalse : Slot) :
    Except Fault Plan := do
  let _ ← s.tree.required id condition "condition"
  let held ← s.tree.required id whenTrue "true branch"
  let failed ← s.tree.required id whenFalse "false branch"
  let span ← s.reportedSpan id
  let markers := s.clauseMarkers id n style
  let first := markers.map (·.1)
  let second := markers.map (·.2)
  -- The first clause as written is the one for a condition that fails if the sense is negated.
  if style = .negated then
    return ⟨n.label id, .unlessTag, span,
      [s.planClause id .elseTag held second, s.planClause id .thenTag failed first]⟩
  else
    return ⟨n.label id, .ifTag, span,
      [s.planClause id .thenTag held first, s.planClause id .elseTag failed second]⟩

/-! ### Dispatches -/

/-- The body of an arm. -/
def armBody (arm : NodeId) : Except Fault NodeId := do
  match (← s.tree.node arm).construct with
  | .arm _ body => s.tree.required arm body "body"
  | _ => s.tree.refuse arm

/-- Where an arm is reported. An empty body is marked after the opening keyword, or else after the
arm; a body with content starts with the content after the opening keyword. -/
def armSpan (id arm body : NodeId) : Except Fault Span := do
  let opening ← s.tree.keyword? arm .opening
  if ← s.tree.isEmptyBody (some body) then
    let after ← match opening with
      | some k => pure k
      | none => s.tree.span arm
    s.resolve id (some body) (some (s.source.contentMarker after))
  else
    let content ← s.tree.span body
    return match opening with
      | some k => content.withStart (s.source.contentStart k)
      | none => content

def planArm (id arm : NodeId) : Except Fault Branch := do
  let body ← s.armBody arm
  reached .whenTag (s.armSpan id arm body) body

def planDispatch (id : NodeId) (n : Node) (arms : List NodeId) (otherwise : Slot) :
    Except Fault Plan := do
  let unmatched ← s.tree.required id otherwise "else branch"
  let span ← s.tree.span id
  let marker :=
    match n.keyword? .alternative, n.keyword? .closing with
    | some _, some closing => some (Span.emptyAt closing.start)
    | _, _ => none
  return ⟨n.label id, .caseTag, span,
    arms.map (s.planArm id) ++
      [reached .elseTag (s.resolve id (some unmatched) marker) unmatched]⟩

/-! ### Operators -/

def planShortCircuit (id : NodeId) (n : Node) (op : Connective) (left right : Slot) :
    Except Fault Plan := do
  let left ← s.tree.required id left "left operand"
  let right ← s.tree.required id right "right operand"
  let span ← s.tree.span id
  -- The right operand is evaluated when a conjunction finds its left operand true, and when a
  -- disjunction finds it false.
  let (tag, evaluated, skipped) :=
    match op with
    | .conjunction => (Tag.conjunction, Tag.thenTag, Tag.elseTag)
    | .disjunction => (Tag.disjunction, Tag.elseTag, Tag.thenTag)
  return ⟨n.label id, tag, span,
    [reached evaluated (s.tree.span right) right,
      return ⟨skipped, .emptyAt (← s.tree.span left).stop, .derived (.implicitBranch id)⟩]⟩

def planSafeNavigation (id : NodeId) (n : Node) (receiver : Slot) : Except Fault Plan := do
  let _ ← s.tree.required id receiver "receiver"
  let span ← s.tree.span id
  return ⟨n.label id, .safeNavigation, span,
    [.ok ⟨.thenTag, span, .hits .nonNil⟩,
      .ok ⟨.elseTag, span, .derived (.implicitBranch id)⟩]⟩

/-! ### Loops -/

/-- The statements that the body of a loop is reported by. A loop that tests first reports a body
between keywords of its own as a whole. -/
def loopStatements (test : LoopTest) (body : NodeId) : Except Fault (List NodeId) := do
  match (← s.tree.node body).construct, test with
  | .sequence _ statements, .after => return statements
  | .sequence explicit statements, .before => return if explicit then [] else statements
  | .emptyBody, _ => return []
  | _, .after => return [body]
  | _, .before => return []

def loopSpan (id : NodeId) (test : LoopTest) (body : NodeId) : Except Fault Span := do
  let statements ← s.loopStatements test body
  match statements.head?, statements.getLast? with
  | some first, some last =>
    let span ← s.tree.span first
    return span.withStop (← s.tree.span last).stop
  | _, _ =>
    match test, ← s.tree.keyword? body .closing with
    | .after, some closing => return .emptyAt closing.start
    | _, _ => s.resolve id (some body) none

def planLoop (id : NodeId) (n : Node) (polarity : Polarity) (test : LoopTest)
    (condition body : Slot) : Except Fault Plan := do
  let _ ← s.tree.required id condition "condition"
  let body ← s.tree.required id body "body"
  let span ← s.tree.span id
  let tag :=
    match polarity with
    | .whileTrue => Tag.whileTag
    | .untilTrue => Tag.untilTag
  return ⟨n.label id, tag, span, [reached .bodyTag (s.loopSpan id test body) body]⟩

/-! ### All constructs -/

/-- The plan of a construct that branches; the others have none. -/
def plan? (id : NodeId) : Except Fault (Option Plan) := do
  let n ← s.tree.node id
  match n.construct with
  | .conditional style condition whenTrue whenFalse =>
    some <$> s.planConditional id n style condition whenTrue whenFalse
  | .dispatch _ arms otherwise => some <$> s.planDispatch id n arms otherwise
  | .shortCircuit op left right => some <$> s.planShortCircuit id n op left right
  | .safeNavigation receiver _ => some <$> s.planSafeNavigation id n receiver
  | .loop polarity test condition body => some <$> s.planLoop id n polarity test condition body
  | .expression .. | .sequence .. | .emptyBody | .arm .. | .rescue .. | .handler ..
  | .ensure .. => return none

end Site

end BranchTally.Report
