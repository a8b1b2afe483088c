import BranchTally.Span

/-! How a place in a report is named: a tag for what it is, a number that no other place of the
report has, and the stretch of program text. A descriptor prints as a list led by its tag, a tag
that is an operator standing in quotes. -/

namespace BranchTally.Report

inductive Tag where
  | ifTag | unlessTag | caseTag | whenTag | elseTag | thenTag | whileTag | untilTag | bodyTag
  | safeNavigation | conjunction | disjunction
  deriving DecidableEq, Repr

namespace Tag

def all : List Tag :=
  [.ifTag, .unlessTag, .caseTag, .whenTag, .elseTag, .thenTag, .whileTag, .untilTag, .bodyTag,
    .safeNavigation, .conjunction, .disjunction]

def name : Tag → String
  | .ifTag => "if"
  | .unlessTag => "unless"
  | .caseTag => "case"
  | .whenTag => "when"
  | .elseTag => "else"
  | .thenTag => "then"
  | .whileTag => "while"
  | .untilTag => "until"
  | .bodyTag => "body"
  | .safeNavigation => "&."
  | .conjunction => "&&"
  | .disjunction => "||"

def named? (s : String) : Option Tag := all.find? (·.name = s)

def isOperator : Tag → Bool
  | .safeNavigation | .conjunction | .disjunction => true
  | .ifTag | .unlessTag | .caseTag | .whenTag | .elseTag | .thenTag | .whileTag | .untilTag
  | .bodyTag => false

def text (t : Tag) : String :=
  if t.isOperator then "\"" ++ t.name ++ "\"" else t.name

end Tag

structure Descriptor where
  tag : Tag
  number : Nat
  span : Span
  deriving DecidableEq, Repr

def Descriptor.text (d : Descriptor) : String :=
  "[:" ++ d.tag.text ++ ", " ++ toString d.number ++
    ", " ++ toString d.span.start.line ++ ", " ++ toString d.span.start.column ++
    ", " ++ toString d.span.stop.line ++ ", " ++ toString d.span.stop.column ++ "]"

end BranchTally.Report
