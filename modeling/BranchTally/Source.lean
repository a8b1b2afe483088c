import BranchTally.Log
import BranchTally.Span

/-! The program text as lines of bytes. Its one service is to look past white space and comments:
a comment starts at `#` and runs to the end of its line. Without any text, or from a line outside
the text, nothing is looked past. A text is taken to have fewer than `Span.coordinateLimit` lines, and
bytes to a line, so that counting them gives coordinates. -/

namespace BranchTally

structure Source where
  lines : List (List UInt8)
  deriving DecidableEq, Repr, Inhabited

namespace Source

def lineFeed : UInt8 := 10

def hash : UInt8 := 35

/-- A blank, or one of the control characters from tab to carriage return. -/
def isSpace (b : UInt8) : Bool :=
  b = 32 || (9 ≤ b && b ≤ 13)

/-- The lines of a text; an empty text has none, and a final line feed leaves an empty last line. -/
def ofText (text : String) : Source :=
  let bytes := text.toUTF8.toList
  ⟨if bytes.isEmpty then [] else bytes.splitOn lineFeed⟩

def lineCount (s : Source) : Nat := s.lines.length

def isEmpty (s : Source) : Bool := s.lines.isEmpty

/-- The point after the last byte. -/
def stop (s : Source) : Position :=
  match s.lines.getLast? with
  | none => .zero
  | some line => ⟨s.lines.length, line.length⟩

/-! ### Looking past white space and comments -/

/-- The column of the first byte of content, when the bytes given start at `column`. -/
def contentColumn? (column : Nat) : List UInt8 → Option Nat
  | [] => none
  | b :: bytes =>
    if isSpace b then contentColumn? (column + 1) bytes
    else if b = hash then none
    else some column

/-- The first content of the lines given, the first of which has this line number and is looked
at from this column on. -/
def firstContent? (number column : Nat) : List (List UInt8) → Option Position
  | [] => none
  | line :: lines =>
    match contentColumn? column (line.drop column) with
    | some c => some ⟨number, c⟩
    | none => firstContent? (number + 1) 0 lines

/-- The point where content next starts after a stretch, or the end of the text. -/
def contentStart (s : Source) (span : Span) : Position :=
  let after := span.stop
  if s.lines.isEmpty || after.line < 1 || (s.lines.length : Int) < after.line then after
  else
    let number := after.line.toNat
    let found :=
      if after.column < 0 then firstContent? (number + 1) 0 (s.lines.drop number)
      else firstContent? number after.column.toNat (s.lines.drop (number - 1))
    found.getD s.stop

/-- The empty stretch where content next starts. -/
def contentMarker (s : Source) (span : Span) : Span :=
  .emptyAt (s.contentStart span)

/-! ### Files -/

/-- States that a file cannot be read. -/
def unreadable (name : String) : String := "cannot read source: " ++ name

/-- What there is to say about a source that was read from a file. -/
def announcement (name : String) (s : Source) : Message :=
  ⟨.info, "read " ++ toString s.lineCount ++ " source lines from " ++ name⟩

end Source

end BranchTally
