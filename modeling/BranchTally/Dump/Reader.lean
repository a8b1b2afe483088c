import BranchTally.Dump.Basic
import BranchTally.Text.Fields

/-! Dumps as a text. A node stands in parentheses: the name of its kind, then perhaps `@` and a
stretch of program text, then attributes `name=value`, then its children. White space and comments,
from `//` to the end of the line or between `/*` and `*/`, may stand between these. The text is cut
into tokens, and the tokens are read with the nodes that are still open on a stack. -/

namespace BranchTally.Dump

/-- A line and a column of the text, both counted from one. -/
structure Place where
  line : Nat
  column : Nat
  deriving DecidableEq, Repr

/-- The characters of a text, each with its place; the first is at `p`. -/
def placed (p : Place) : List Char → List (Char × Place)
  | [] => []
  | c :: cs =>
    (c, p) :: placed (if c = '\n' then ⟨p.line + 1, 1⟩ else ⟨p.line, p.column + 1⟩) cs

/-- The place after the last character of a text that starts at `p`. -/
def placeAfter (p : Place) : List Char → Place
  | [] => p
  | c :: cs => placeAfter (if c = '\n' then ⟨p.line + 1, 1⟩ else ⟨p.line, p.column + 1⟩) cs

/-! ### Tokens -/

inductive Shape where
  | opening
  | closing
  | word (name : String)
  | span (s : Span)
  | attribute (name value : String)
  deriving DecidableEq, Repr

structure Token where
  place : Place
  shape : Shape
  deriving DecidableEq, Repr

/-- What is being passed over. -/
inductive Gap where
  | space | lineComment | blockComment

/-- The characters after white space and comments. -/
def skip : Gap → List (Char × Place) → List (Char × Place)
  | _, [] => []
  | .space, ('/', _) :: ('/', _) :: cs => skip .lineComment cs
  | .space, ('/', _) :: ('*', _) :: cs => skip .blockComment cs
  | .space, c :: cs => if Text.isSpace c.1 then skip .space cs else c :: cs
  | .lineComment, c :: cs => skip (if c.1 = '\n' || c.1 = '\r' then .space else .lineComment) cs
  | .blockComment, ('*', _) :: ('/', _) :: cs => skip .space cs
  | .blockComment, _ :: cs => skip .blockComment cs

def startsName (c : Char) : Bool := c.isAlpha || c = '_'

def isNameChar (c : Char) : Bool := c.isAlphanum || c = '_'

def isValueChar (c : Char) : Bool := !Text.isSpace c && c ≠ '(' && c ≠ ')'

/-- The longest stretch of characters of a class at the front, and the rest. -/
def run (p : Char → Bool) (cs : List (Char × Place)) : String × List (Char × Place) :=
  (String.ofList ((cs.takeWhile fun c => p c.1).map (·.1)), cs.dropWhile fun c => p c.1)

/-- The first token of a text that starts with one, and the rest; or else where it fails. -/
def token (c : Char) (p : Place) (cs : List (Char × Place)) :
    Except Place (Token × List (Char × Place)) :=
  if c = '(' then .ok (⟨p, .opening⟩, cs)
  else if c = ')' then .ok (⟨p, .closing⟩, cs)
  else if c = '@' then
    let (written, rest) := run isValueChar (skip .space cs)
    match Span.read? written with
    | some s => .ok (⟨p, .span s⟩, rest)
    | none => .error p
  else if startsName c then
    let (name, rest) := run isNameChar ((c, p) :: cs)
    match skip .space rest with
    | ('=', q) :: rest =>
      let (value, rest) := run isValueChar (skip .space rest)
      if value.isEmpty then .error q else .ok (⟨p, .attribute name value⟩, rest)
    | rest => .ok (⟨p, .word name⟩, rest)
  else .error p

/-- At most this many tokens of a text. -/
def tokens : Nat → List (Char × Place) → Except Place (List Token)
  | 0, _ => .ok []
  | most + 1, cs =>
    match skip .space cs with
    | [] => .ok []
    | (c, p) :: cs => do
      let (t, rest) ← token c p cs
      return t :: (← tokens most rest)

/-! ### Nodes -/

/-- A node that is still open, with its attributes and children so far, the latest first. -/
structure Frame where
  kind : String
  line : Nat
  span : Option Span
  attributes : List (String × String)
  children : List Dump

def Frame.close (f : Frame) : Dump :=
  .node f.kind f.line f.span f.attributes.reverse f.children.reverse

/-- The node that tokens stand for when these nodes are open; or else where they fail, which is at
`stop` if they end too early. -/
def ofTokens (stop : Place) : List Token → List Frame → Except Place Dump
  | ⟨_, .opening⟩ :: ⟨_, .word kind⟩ :: ts, frames =>
    let after := (ts.head?.map (·.place)).getD stop
    ofTokens stop ts (⟨kind, after.line, none, [], []⟩ :: frames)
  | ⟨p, .span s⟩ :: ts, f :: fs =>
    if f.span.isNone && f.attributes.isEmpty && f.children.isEmpty then
      ofTokens stop ts ({ f with span := some s } :: fs)
    else .error p
  | ⟨p, .attribute name value⟩ :: ts, f :: fs =>
    if f.children.isEmpty then
      ofTokens stop ts ({ f with attributes := (name, value) :: f.attributes } :: fs)
    else .error p
  | ⟨_, .closing⟩ :: ts, f :: g :: fs =>
    ofTokens stop ts ({ g with children := f.close :: g.children } :: fs)
  | [⟨_, .closing⟩], [f] => .ok f.close
  | ⟨_, .closing⟩ :: t :: _, [_] => .error t.place
  | t :: _, _ => .error t.place
  | [], _ => .error stop

/-- Why a file gives no dump. -/
inductive FileFault where
  | unreadable
  | badText (place : Place) (line : String)

/-- States the fault, pointing at the place in its line. -/
def FileFault.message (name : String) : FileFault → String
  | .unreadable => "cannot read tree: " ++ name
  | .badText place line =>
    "parse error at file " ++ name ++ " line " ++ toString place.line ++ " column " ++
      toString place.column ++ "\n'" ++ line ++ "'\n" ++
      String.ofList (List.replicate place.column ' ') ++ "^- here"

/-- The dump in a file, which holds a text or cannot be read. -/
def ofFile : Option String → Except FileFault Dump
  | none => .error .unreadable
  | some text =>
    let cs := text.toList
    let first : Place := ⟨1, 1⟩
    let outcome := do
      let ts ← tokens cs.length (placed first cs)
      ofTokens (placeAfter first cs) ts []
    match outcome with
    | .ok d => .ok d
    | .error p => .error (.badText p (String.ofList ((Text.lines cs)[p.line - 1]?.getD [])))

end BranchTally.Dump
