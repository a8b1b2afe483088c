import BranchTally.Proofs.Text.Numerals
import Mathlib.Data.List.Basic
import Mathlib.Data.List.Induction

/-! Printing numbers and stretches against reading them. A number is written plainly if no zero stands
in front of its digits, and plain digits are the ones that it prints with. A stretch prints plainly and
is read back as it was, as long as its coordinates are neither negative nor beyond a 32-bit integer; and
a text of four plain numbers within these bounds is what the stretch read from it prints as. -/

namespace BranchTally

/-! ### Plain numbers -/

namespace Decimal

variable {cs : List Char} {c : Char} {n : Nat}

/-- The digits do not start with a zero, unless they are a zero alone. -/
def Plain (cs : List Char) : Prop := cs.head? = some '0' → cs = ['0']

/-- What is left of plain digits without the last one is plain, and is not a zero. -/
theorem Plain.init (h : Plain (cs ++ [c])) (hne : cs ≠ []) : Plain cs ∧ cs ≠ ['0'] := by
  have hhead : cs.head? ≠ some '0' := by
    intro hzero
    have hone := h (by rwa [List.head?_append_of_ne_nil cs hne])
    have hlength : cs.length + 1 = 1 := by simpa using congrArg List.length hone
    exact hne (List.eq_nil_of_length_eq_zero (by omega))
  exact ⟨fun hzero => absurd hzero hhead, fun hcs => hhead (by rw [hcs]; rfl)⟩

theorem exists_digit (h : c.isDigit) : ∃ d < 10, c.toNat - '0'.toNat = d ∧ Nat.digitChar d = c := by
  obtain ⟨hlo, hhi⟩ : 48 ≤ c.toNat ∧ c.toNat ≤ 57 := by
    simpa [Char.isDigit, UInt32.le_iff_toNat_le] using h
  have hlt : c.toNat - 48 < 10 := by omega
  refine ⟨c.toNat - 48, hlt, rfl, Char.toNat_inj.mp ?_⟩
  rw [Nat.toNat_digitChar_of_lt_ten hlt]
  omega

theorem plain_toDigits (n : Nat) : Plain (Nat.toDigits 10 n) := by
  induction n using Nat.strongRecOn with
  | ind n ih =>
    rw [Nat.toDigits_eq_if (by decide)]
    split
    next hn =>
      intro hzero
      simpa using hzero
    next hn =>
      intro hzero
      rw [List.head?_append_of_ne_nil _ Nat.toDigits_ne_nil] at hzero
      have htens := congrArg (Nat.ofDigitChars 10 · 0) (ih (n / 10) (by omega) hzero)
      rw [Nat.ofDigitChars_toDigits (by decide) (by decide)] at htens
      change n / 10 = 0 at htens
      omega

/-- Plain digits are the digits of their value. -/
theorem toDigits_ofDigitChars (hne : cs ≠ []) (hd : ∀ c ∈ cs, c.isDigit) (hp : Plain cs) :
    Nat.toDigits 10 (Nat.ofDigitChars 10 cs 0) = cs := by
  induction cs using List.reverseRecOn with
  | nil => exact absurd rfl hne
  | append_singleton cs c ih =>
    obtain ⟨d, hlt, hvalue, hdigit⟩ := exists_digit (hd c (by simp))
    have hsum : Nat.ofDigitChars 10 (cs ++ [c]) 0 = 10 * Nat.ofDigitChars 10 cs 0 + d := by
      rw [Nat.ofDigitChars_append, Nat.ofDigitChars_cons, Nat.ofDigitChars_nil, hvalue]
    by_cases hcs : cs = []
    · subst hcs
      rw [hsum, Nat.ofDigitChars_nil, Nat.mul_zero, Nat.zero_add, Nat.toDigits_of_lt_base hlt,
        hdigit, List.nil_append]
    · obtain ⟨hplain, hzero⟩ := hp.init hcs
      have htens := ih hcs (fun c hc => hd c (by simp [hc])) hplain
      have hpos : 0 < Nat.ofDigitChars 10 cs 0 := by
        refine Nat.pos_of_ne_zero fun h0 => hzero ?_
        rw [← htens, h0]
        rfl
      rw [hsum, ← Nat.toDigits_append_toDigits (by decide) hpos hlt, htens,
        Nat.toDigits_of_lt_base hlt, hdigit]

end Decimal

/-! ### Plain stretches -/

namespace Span

variable {text : String} {s : Span} {n line column line' column' : Nat}

/-- No coordinate is negative or beyond a 32-bit integer. -/
def Fits (s : Span) : Prop :=
  ∀ c ∈ [s.start.line, s.start.column, s.stop.line, s.stop.column], 0 ≤ c ∧ c < coordinateLimit

/-- The text is four plain numbers that are coordinates as they stand, with the separators of a
stretch between them. -/
def Plain (text : String) : Prop :=
  ∃ line column line' column',
    text.toList = line ++ ':' :: column ++ '-' :: (line' ++ ':' :: column') ∧
    ∀ number ∈ [line, column, line', column'],
      Decimal.Below coordinateLimit number ∧ Decimal.Plain number

/-- The stretch with these coordinates. -/
def ofNats (line column line' column' : Nat) : Span := ⟨⟨line, column⟩, ⟨line', column'⟩⟩

theorem fits_iff : s.Fits ↔ ∃ line column line' column', s = ofNats line column line' column' ∧
    ∀ n ∈ [line, column, line', column'], n < coordinateLimit := by
  simp only [Fits, List.forall_mem_cons, List.not_mem_nil, IsEmpty.forall_iff, implies_true,
    and_true]
  constructor
  · intro h
    obtain ⟨⟨l, c⟩, ⟨l', c'⟩⟩ := s
    dsimp only at h
    refine ⟨l.toNat, c.toNat, l'.toNat, c'.toNat, ?_, by omega⟩
    simp only [ofNats, Int.toNat_of_nonneg, h]
  · rintro ⟨line, column, line', column', rfl, h⟩
    simp only [ofNats]
    omega

theorem toList_text_ofNats : (ofNats line column line' column').text.toList =
    Nat.toDigits 10 line ++ ':' :: Nat.toDigits 10 column ++
      '-' :: (Nat.toDigits 10 line' ++ ':' :: Nat.toDigits 10 column') := by
  have hnat (n : Nat) : (toString (n : Int)).toList = Nat.toDigits 10 n := Nat.toList_repr
  simp only [text, ofNats, Position.text, String.toList_append, hnat]
  simp

theorem coordinate?_toDigits (h : n < coordinateLimit) :
    coordinate? (Nat.toDigits 10 n) = some (n : Int) := by
  have hcount : coordinateLimit < coordinateCount := by decide
  exact coordinate?_eq_some.mpr
    ⟨n, Decimal.digits?_toDigits n, Nat.lt_trans h hcount, bmod_of_lt h⟩

/-- A stretch is read from the digits of its coordinates. -/
theorem read?_of_toDigits (hn : ∀ n ∈ [line, column, line', column'], n < coordinateLimit)
    (h : text.toList = Nat.toDigits 10 line ++ ':' :: Nat.toDigits 10 column ++
      '-' :: (Nat.toDigits 10 line' ++ ':' :: Nat.toDigits 10 column')) :
    read? text = some (ofNats line column line' column') := by
  simp only [List.forall_mem_cons] at hn
  obtain ⟨hl, hc, hl', hc', -⟩ := hn
  refine read?_eq_some.mpr ⟨_, _, h, ?_, ?_⟩
  · exact position?_eq_some.mpr ⟨_, _, rfl, coordinate?_toDigits hl, coordinate?_toDigits hc⟩
  · exact position?_eq_some.mpr ⟨_, _, rfl, coordinate?_toDigits hl', coordinate?_toDigits hc'⟩

theorem Fits.read?_text (h : s.Fits) : read? s.text = some s := by
  obtain ⟨line, column, line', column', rfl, hn⟩ := fits_iff.mp h
  exact read?_of_toDigits hn toList_text_ofNats

theorem Fits.plain_text (h : s.Fits) : Plain s.text := by
  obtain ⟨line, column, line', column', rfl, hn⟩ := fits_iff.mp h
  refine ⟨_, _, _, _, toList_text_ofNats, ?_⟩
  change ∀ number ∈ [line, column, line', column'].map (Nat.toDigits 10), _
  refine List.forall_mem_map.mpr fun n hmem => ⟨?_, Decimal.plain_toDigits n⟩
  exact Decimal.exists_digits?.mp ⟨n, Decimal.digits?_toDigits n, hn n hmem⟩

/-- A text of plain numbers is what the stretch that it is read as prints as. -/
theorem Plain.text_of_read? (h : Plain text) (hs : read? text = some s) :
    s.Fits ∧ s.text = text := by
  obtain ⟨line, column, line', column', htext, hnumbers⟩ := h
  have hdigits : ∀ number ∈ [line, column, line', column'], ∃ n < coordinateLimit,
      number = Nat.toDigits 10 n := by
    intro number hmem
    obtain ⟨⟨hne, hd, hlt⟩, hplain⟩ := hnumbers number hmem
    exact ⟨_, hlt, (Decimal.toDigits_ofDigitChars hne hd hplain).symm⟩
  simp only [List.forall_mem_cons] at hdigits
  obtain ⟨⟨l, hl, rfl⟩, ⟨c, hc, rfl⟩, ⟨l', hl', rfl⟩, ⟨c', hc', rfl⟩, -⟩ := hdigits
  have hn : ∀ n ∈ [l, c, l', c'], n < coordinateLimit := by simp [hl, hc, hl', hc']
  obtain rfl := Option.some.inj (hs.symm.trans (read?_of_toDigits hn htext))
  exact ⟨fits_iff.mpr ⟨l, c, l', c', rfl, hn⟩,
    String.toList_inj.mp (toList_text_ofNats.trans htext.symm)⟩

end Span

end BranchTally
