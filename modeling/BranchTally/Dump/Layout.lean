import BranchTally.Counters.Reader
import BranchTally.Dump.Reading
import BranchTally.Log

/-! Laying a dump out as a tree. The present nodes are numbered in the order in which they are
written, parents before children; a node's slots and children are the numbers its own children
were given. A dump is refused when a node has an attribute that cannot be read or children that
its form has no place for, the innermost and leftmost such node first. -/

namespace BranchTally.Dump

/-! ### Attributes -/

/-- The trackers and keywords read so far, the latest first. -/
structure Decorations where
  trackers : List (Role × TrackerId)
  keywords : List (Keyword × Span)

/-- The attribute that belongs to the form of a node and not to its decorations. -/
def styleAttribute : String := "style"

def readAttribute (d : Dump) (seen : Decorations) (name value : String) : Reading Decorations :=
  if name = styleAttribute then pure seen
  else
    match Role.named? name, Keyword.named? name with
    | some role, _ =>
      match TrackerId.read? value.toList with
      | some id => pure { seen with trackers := (role, id) :: seen.trackers }
      | none => .fail d.line (.badTracker value)
    | none, some key =>
      match Span.read? value with
      | some span => pure { seen with keywords := (key, span) :: seen.keywords }
      | none => .fail d.line (.badSpan value)
    | none, none => do
      .ignore ⟨d.line, name, d.kind⟩
      pure seen

def readAttributes (d : Dump) (seen : Decorations) :
    List (String × String) → Reading Decorations
  | [] => pure seen
  | (name, value) :: attributes => do
    readAttributes d (← readAttribute d seen name value) attributes

/-- How a conditional says it is written, the first saying being the one that counts. -/
def styleName (d : Dump) : String :=
  (d.attributes.lookup styleAttribute).getD Style.plain.name

/-! ### Slots -/

/-- A child after it has been laid out. -/
structure Placed where
  kind : String
  slot : Slot
  /-- The nodes of the child, itself first. -/
  nodes : List Node

/-- The node in a slot by its place. -/
def slotOf (placed : List Placed) (i : Nat) : Slot := placed[i]?.bind (·.slot)

/-- The nodes of the children that are present. -/
def presentOf (placed : List Placed) : List NodeId := placed.filterMap (·.slot)

/-- The slots of a form with a leading slot, a run of arms and a trailing slot. -/
structure Arms where
  leading : Slot
  arms : List NodeId
  trailing : Slot

def splitArms (kind arm : String) (placed : List Placed) : Except Flaw Arms :=
  let leading := placed.head?.filter (·.kind ≠ arm)
  let rest := if leading.isSome then placed.tail else placed
  let arms := presentOf (rest.takeWhile (·.kind = arm))
  match rest.dropWhile (·.kind = arm) with
  | [] => .ok ⟨leading.bind (·.slot), arms, none⟩
  | [last] => .ok ⟨leading.bind (·.slot), arms, last.slot⟩
  | _ :: extra :: _ => .error (.unexpectedChild extra.kind kind)

/-- What a node is, given its children. -/
def construct (d : Dump) (placed : List Placed) : Except Flaw Construct :=
  let form := Form.ofKind d.kind
  if form.limit.any (· < placed.length) then .error (.tooManyChildren d.kind)
  else
    match form with
    | .expression type => .ok (.expression type (presentOf placed))
    | .sequence explicit => .ok (.sequence explicit (presentOf placed))
    | .emptyBody => .ok .emptyBody
    | .conditional =>
      match Style.named? d.styleName with
      | some style =>
        .ok (.conditional style (slotOf placed 0) (slotOf placed 1) (slotOf placed 2))
      | none => .error (.unknownStyle d.styleName)
    | .dispatch => do
      let a ← splitArms d.kind armKind placed
      return .dispatch a.leading a.arms a.trailing
    | .arm => .ok (.arm (presentOf placed.dropLast) (placed.getLast?.bind (·.slot)))
    | .shortCircuit op => .ok (.shortCircuit op (slotOf placed 0) (slotOf placed 1))
    | .safeNavigation => .ok (.safeNavigation (slotOf placed 0) (presentOf placed.tail))
    | .loop polarity test => .ok (.loop polarity test (slotOf placed 0) (slotOf placed 1))
    | .rescue => do
      let a ← splitArms d.kind handlerKind placed
      return .rescue a.leading a.arms a.trailing
    | .handler => .ok (.handler (slotOf placed 0) (slotOf placed 1) (slotOf placed 2))
    | .ensure => .ok (.ensure (slotOf placed 0) (slotOf placed 1))

/-! ### Nodes -/

mutual

/-- Lays out a node and what lies below it, giving it the number `next` if it is present. -/
def layout (next : NodeId) (parent : Slot) (index : Nat) : Dump → Reading Placed
  | d@(.node kind _ span attributes children) =>
    if d.isAbsent then pure ⟨kind, none, []⟩
    else do
      let placed ← layoutAll (next + 1) next 0 children
      let decorations ← d.readAttributes ⟨[], []⟩ attributes
      let what ← .lift d.line (d.construct placed)
      let node : Node :=
        { construct := what
          span := span
          parent := parent
          index := index
          children := presentOf placed
          trackers := decorations.trackers
          keywords := decorations.keywords }
      return ⟨kind, some next, node :: placed.flatMap (·.nodes)⟩

/-- Lays out the children of a node in turn, `index` of which are already present. -/
def layoutAll (next parent : NodeId) (index : Nat) : List Dump → Reading (List Placed)
  | [] => pure []
  | d :: ds => do
    let first ← layout next (some parent) index d
    let others ←
      layoutAll (next + first.nodes.length) parent (index + first.slot.toList.length) ds
    return first :: others

end

/-- The tree that a dump stands for. -/
def toTree (d : Dump) : Reading Tree :=
  let root := layout 0 none 0 d
  ⟨root.ignored,
    match root.result with
    | .ok placed => if placed.slot.isSome then .ok ⟨placed.nodes.toArray⟩ else .error .absentRoot
    | .error fault => .error fault⟩

/-- The tree that a dump stands for, and what there is to say about it; the dump is known to the
reader by its name. -/
def load (name : String) (d : Dump) : List Message × Except LoadFault Tree :=
  let reading := d.toTree
  let warnings := reading.ignored.map fun u => ⟨.warning, u.message name⟩
  match reading.result with
  | .ok t =>
    (warnings ++ [⟨.info, "loaded " ++ toString t.size ++ " nodes from " ++ name⟩], .ok t)
  | .error fault => (warnings, .error fault)

end BranchTally.Dump
