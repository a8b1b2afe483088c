/-! Whole numbers written in decimal: plain digits, digits after an optional plus sign, and digits
after an optional sign. Leading zeros are read; an empty text, blanks and any other character are
not. Reading the digits of a number gives the number back. -/

namespace BranchTally.Decimal

/-- One or more digits. -/
def digits? (cs : List Char) : Option Nat :=
  if cs ≠ [] ∧ cs.all Char.isDigit then some (Nat.ofDigitChars 10 cs 0) else none

/-- Digits, with or without a plus sign in front. -/
def unsigned? : List Char → Option Nat
  | '+' :: cs => digits? cs
  | cs => digits? cs

/-- Digits, with or without a sign in front. -/
def signed? : List Char → Option Int
  | '-' :: cs => (digits? cs).map fun n => -(n : Int)
  | cs => (unsigned? cs).map fun n => (n : Int)

theorem digits?_toDigits (n : Nat) : digits? (Nat.toDigits 10 n) = some n := by
  have hd : (Nat.toDigits 10 n).all Char.isDigit = true :=
    List.all_eq_true.2 fun _ h => Nat.isDigit_of_mem_toDigits (by decide) (by decide) h
  simp [digits?, hd, Nat.toDigits_ne_nil, Nat.ofDigitChars_toDigits]

end BranchTally.Decimal
