import BranchTally.Tree.Basic

/-! A decorated tree as it is written down: nested nodes, each with the name of its kind, the line
it is written on, where its syntax stands, its attributes and its children. The kind `_` marks a
slot with no syntax. Every other name belongs to one form of syntax, names without a meaning of
their own being expressions. -/

namespace BranchTally

inductive Dump where
  | node (kind : String) (line : Int) (span : Option Span)
      (attributes : List (String × String)) (children : List Dump)
  deriving Repr

namespace Dump

def kind : Dump → String
  | node kind .. => kind

def line : Dump → Int
  | node _ line .. => line

def span : Dump → Option Span
  | node _ _ span .. => span

def attributes : Dump → List (String × String)
  | node _ _ _ attributes _ => attributes

def children : Dump → List Dump
  | node _ _ _ _ children => children

/-- The name of the kind of a slot with no syntax. -/
def absentKind : String := "_"

def isAbsent (d : Dump) : Bool := d.kind = absentKind

/-! ### Forms -/

/-- A form of syntax, by the names of kinds that belong to it. -/
inductive Form where
  | expression (type : String)
  | sequence (explicit : Bool)
  | emptyBody
  | conditional
  | dispatch
  | arm
  | shortCircuit (op : Connective)
  | safeNavigation
  | loop (polarity : Polarity) (test : LoopTest)
  | rescue
  | handler
  | ensure
  deriving DecidableEq, Repr

/-- The kind of the arms of a dispatch. -/
def armKind : String := "when"

/-- The kind of the handler arms of a rescue. -/
def handlerKind : String := "resbody"

def Form.ofKind : String → Form
  | "if" => .conditional
  | "case" => .dispatch
  | "when" => .arm
  | "and" => .shortCircuit .conjunction
  | "or" => .shortCircuit .disjunction
  | "csend" => .safeNavigation
  | "while" => .loop .whileTrue .before
  | "until" => .loop .untilTrue .before
  | "while_post" => .loop .whileTrue .after
  | "until_post" => .loop .untilTrue .after
  | "rescue" => .rescue
  | "resbody" => .handler
  | "ensure" => .ensure
  | "begin" => .sequence false
  | "kwbegin" => .sequence true
  | "empty" => .emptyBody
  | type => .expression type

/-- The most children that a form can have, absent ones included. -/
def Form.limit : Form → Option Nat
  | .conditional | .handler => some 3
  | .shortCircuit _ | .loop .. | .ensure => some 2
  | .emptyBody => some 0
  | .expression _ | .sequence _ | .dispatch | .arm | .safeNavigation | .rescue => none

/-! ### What is wrong with a node -/

inductive Flaw where
  | badTracker (value : String)
  | badSpan (value : String)
  | unknownStyle (style : String)
  | tooManyChildren (kind : String)
  | unexpectedChild (child kind : String)
  deriving DecidableEq, Repr

def Flaw.text : Flaw → String
  | .badTracker value => "bad tracker id '" ++ value ++ "'"
  | .badSpan value => "bad range '" ++ value ++ "'"
  | .unknownStyle style => "unknown conditional style '" ++ style ++ "'"
  | .tooManyChildren kind => "too many children for " ++ kind
  | .unexpectedChild child kind => "unexpected child " ++ child ++ " in " ++ kind

/-- Why a dump is refused. -/
inductive LoadFault where
  | flawed (line : Int) (flaw : Flaw)
  | absentRoot
  deriving DecidableEq, Repr

/-- States the fault, for a dump read under a name. -/
def LoadFault.message (name : String) : LoadFault → String
  | .flawed line flaw => name ++ ":" ++ toString line ++ ": error: " ++ flaw.text
  | .absentRoot => name ++ ": error: the root of a tree cannot be absent"

/-- An attribute that means nothing, which is passed over. -/
structure UnknownAttribute where
  line : Int
  name : String
  kind : String
  deriving DecidableEq, Repr

/-- States the oddity, for a dump read under a name. -/
def UnknownAttribute.message (name : String) (u : UnknownAttribute) : String :=
  name ++ ":" ++ toString u.line ++ ": ignoring unknown attribute '" ++ u.name ++ "' on " ++ u.kind

end Dump

end BranchTally
