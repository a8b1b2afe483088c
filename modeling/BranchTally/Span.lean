import BranchTally.Text.Decimal

/-! Points and stretches of program text. Lines count from one and columns from zero; a stretch
holds its start and not its stop. Both have a written form, `line:column` and
`line:column-line:column`. Coordinates are 32-bit signed integers: a written number of 32 bits is
read as the coordinate with the same bits, and a point made by counting lines and columns has them
exactly as long as there are fewer of either than there are coordinates. -/

namespace BranchTally

structure Position where
  line : Int
  column : Int
  deriving DecidableEq, Repr, Inhabited

namespace Position

/-- Earlier lines come first, and on one line earlier columns. -/
instance : LT Position where
  lt p q := p.line < q.line ∨ p.line = q.line ∧ p.column < q.column

instance : LE Position where
  le p q := p < q ∨ p = q

instance (p q : Position) : Decidable (p < q) :=
  inferInstanceAs (Decidable (p.line < q.line ∨ p.line = q.line ∧ p.column < q.column))

instance (p q : Position) : Decidable (p ≤ q) :=
  inferInstanceAs (Decidable (p < q ∨ p = q))

/-- The point before any text. -/
def zero : Position := ⟨0, 0⟩

def text (p : Position) : String :=
  toString p.line ++ ":" ++ toString p.column

end Position

structure Span where
  start : Position
  stop : Position
  deriving DecidableEq, Repr, Inhabited

namespace Span

def zero : Span := ⟨.zero, .zero⟩

/-- The empty stretch sitting at a point. -/
def emptyAt (p : Position) : Span := ⟨p, p⟩

def withStart (s : Span) (p : Position) : Span := { s with start := p }

def withStop (s : Span) (p : Position) : Span := { s with stop := p }

def isEmpty (s : Span) : Bool := s.start = s.stop

def text (s : Span) : String :=
  s.start.text ++ "-" ++ s.stop.text

/-! ### Reading -/

/-- The number of words of 32 bits. -/
def coordinateCount : Nat := 4294967296

/-- The number of coordinates that are not negative. -/
def coordinateLimit : Nat := 2147483648

/-- A number below the limit is the coordinate that it stands for. -/
theorem bmod_of_lt {k : Nat} (h : k < coordinateLimit) : Int.bmod k coordinateCount = k := by
  unfold coordinateLimit at h
  apply Int.bmod_eq_of_le_mul_two <;> unfold coordinateCount <;> omega

/-- The coordinate that a written number stands for. -/
def coordinate? (cs : List Char) : Option Int :=
  ((Decimal.digits? cs).filter (· < coordinateCount)).map fun n => Int.bmod n coordinateCount

def position? (cs : List Char) : Option Position :=
  match cs.splitOn ':' with
  | [line, column] => return ⟨← coordinate? line, ← coordinate? column⟩
  | _ => none

/-- The stretch with this written form, all of the text being used. -/
def read? (text : String) : Option Span :=
  match text.toList.splitOn '-' with
  | [start, stop] => return ⟨← position? start, ← position? stop⟩
  | _ => none

end Span

end BranchTally
