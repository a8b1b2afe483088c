import BranchTally.Counters
import BranchTally.Log
import BranchTally.Text.Decimal
import BranchTally.Text.Fields

/-! Counts as a text: one tracker and its count to a line, separated by blanks or tabs. Lines that
are empty or start with `#` are passed over, white space at their ends aside. The first line that
is neither stops the reading. Lines are numbered exactly, which takes 32 bits as long as there are
fewer than `Span.coordinateLimit` of them. -/

namespace BranchTally

/-- A tracker, which is a number of 64 bits. -/
def TrackerId.read? (field : List Char) : Option TrackerId :=
  (Decimal.unsigned? field).filter (· < Width.wordCount)

namespace Counters

/-- What is wrong with a line. -/
inductive EntryFault where
  | notTwoFields | badNumber
  deriving DecidableEq, Repr

/-- A line that is no entry, with its number and its text. -/
structure ReadFault where
  line : Nat
  cause : EntryFault
  text : List Char
  deriving DecidableEq, Repr

/-- States the fault, for counters read under a name. -/
def ReadFault.message (name : String) (f : ReadFault) : String :=
  let what := match f.cause with
    | .notTwoFields => "expected 'tracker count', got '"
    | .badNumber => "bad counter entry '"
  name ++ ":" ++ toString f.line ++ ": error: " ++ what ++ String.ofList f.text ++ "'"

/-- A count, which is a number of 63 bits. -/
def count? (field : List Char) : Option Int :=
  (Decimal.signed? field).filter fun n => 0 ≤ n && 2 * n < Width.wordCount

def ignored (line : List Char) : Bool :=
  line.head?.all (· = '#')

/-- The entry on a line, its outer white space being gone. -/
def readEntry (line : List Char) : Except EntryFault (TrackerId × Int) :=
  match Text.fields line with
  | [tracker, count] =>
    match TrackerId.read? tracker, count? count with
    | some id, some n => .ok (id, n)
    | _, _ => .error .badNumber
  | _ => .error .notTwoFields

/-- Adds the entries of the lines given, the first of which has this number. -/
def readLines (c : Counters) (number : Nat) : List (List Char) → Except ReadFault Counters
  | [] => .ok c
  | line :: lines =>
    let line := Text.trim line
    if ignored line then readLines c (number + 1) lines
    else
      match readEntry line with
      | .ok (id, n) => readLines (c.add id n) (number + 1) lines
      | .error cause => .error ⟨number, cause, line⟩

/-- The counters that a text lists. -/
def read (text : String) : Except ReadFault Counters :=
  readLines .empty 1 (Text.lines text.toList)

/-! ### Files -/

/-- Why a file gives no counters. -/
inductive FileFault where
  | unreadable
  | faulty (fault : ReadFault)
  deriving DecidableEq, Repr

def FileFault.message (name : String) : FileFault → String
  | .unreadable => "cannot read counters: " ++ name
  | .faulty fault => fault.message name

/-- The counters in a file, which holds a text or cannot be read. -/
def ofFile : Option String → Except FileFault Counters
  | none => .error .unreadable
  | some text =>
    match read text with
    | .ok c => .ok c
    | .error fault => .error (.faulty fault)

/-- What there is to say about counters that were read from a file. -/
def announcement (name : String) (c : Counters) : Message :=
  ⟨.info, "read " ++ toString c.size ++ " counters from " ++ name⟩

end Counters

end BranchTally
