/-! Cutting a text into lines and a line into fields. White space at the ends of a line is a
blank, a tab, a line feed, a vertical tab, a form feed or a carriage return; fields are separated
by runs of blanks and tabs alone. -/

namespace BranchTally.Text

def isSpace (c : Char) : Bool :=
  c = ' ' || ('\t' ≤ c && c ≤ '\r')

def isBlank (c : Char) : Bool :=
  c = ' ' || c = '\t'

/-- The text without the white space at both ends. -/
def trim (cs : List Char) : List Char :=
  ((cs.dropWhile isSpace).reverse.dropWhile isSpace).reverse

def lines (cs : List Char) : List (List Char) :=
  cs.splitOn '\n'

/-- The stretches between runs of blanks and tabs. -/
def fields (cs : List Char) : List (List Char) :=
  (cs.splitOnP isBlank).filter fun field => !field.isEmpty

end BranchTally.Text
