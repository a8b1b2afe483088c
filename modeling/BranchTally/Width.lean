/-! The arithmetic of counts. Counts are kept in signed 64-bit words, whose sums and differences
wrap round; the same derivations also make sense on whole numbers of any size. -/

namespace BranchTally

inductive Width where
  | word | unbounded
  deriving DecidableEq, Repr

namespace Width

/-- The number of words of 64 bits. -/
def wordCount : Nat := 18446744073709551616

/-- The count that is kept for a number. -/
def fit : Width → Int → Int
  | .word, n => Int.bmod n wordCount
  | .unbounded, n => n

def add (w : Width) (m n : Int) : Int := w.fit (m + n)

def sub (w : Width) (m n : Int) : Int := w.fit (m - n)

@[simp] theorem fit_unbounded (n : Int) : unbounded.fit n = n := rfl

@[simp] theorem add_unbounded (m n : Int) : unbounded.add m n = m + n := rfl

@[simp] theorem sub_unbounded (m n : Int) : unbounded.sub m n = m - n := rfl

end Width

end BranchTally
