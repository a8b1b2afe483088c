import BranchTally.Counters.Reader
import BranchTally.Span

/-! The written forms of trackers and of stretches of program text. A reader accepts exactly the
texts of its form: the digits of a number within bounds, after a plus sign or not; four such numbers
with a colon, a hyphen and a colon between them. -/

namespace BranchTally

/-! ### Numbers -/

namespace Decimal

variable {cs : List Char} {n bound : Nat}

/-- One or more digits that denote a number below a bound. -/
def Below (bound : Nat) (cs : List Char) : Prop :=
  cs ≠ [] ∧ (∀ c ∈ cs, c.isDigit) ∧ Nat.ofDigitChars 10 cs 0 < bound

theorem digits?_eq_some : digits? cs = some n ↔
    cs ≠ [] ∧ (∀ c ∈ cs, c.isDigit) ∧ Nat.ofDigitChars 10 cs 0 = n := by
  simp [digits?, and_assoc]

theorem exists_digits? : (∃ n, digits? cs = some n ∧ n < bound) ↔ Below bound cs := by
  simp only [digits?_eq_some, Below]
  constructor
  · rintro ⟨n, ⟨h0, hd, rfl⟩, hn⟩
    exact ⟨h0, hd, hn⟩
  · rintro ⟨h0, hd, hn⟩
    exact ⟨_, ⟨h0, hd, rfl⟩, hn⟩

theorem unsigned?_eq_some : unsigned? cs = some n ↔
    ∃ ds, (cs = ds ∨ cs = '+' :: ds) ∧ digits? ds = some n := by
  constructor
  · intro h
    unfold unsigned? at h
    split at h
    next ds => exact ⟨ds, .inr rfl, h⟩
    next => exact ⟨cs, .inl rfl, h⟩
  · rintro ⟨ds, rfl | rfl, h⟩
    · unfold unsigned?
      split
      next => simp [digits?] at h
      next => exact h
    · exact h

end Decimal

theorem TrackerId.isSome_read? {cs : List Char} : (TrackerId.read? cs).isSome ↔
    ∃ ds, (cs = ds ∨ cs = '+' :: ds) ∧ Decimal.Below Width.wordCount ds := by
  simp only [read?, Option.isSome_iff_exists, Option.filter_eq_some_iff, decide_eq_true_eq,
    Decimal.unsigned?_eq_some, ← Decimal.exists_digits?]
  constructor
  · rintro ⟨n, ⟨ds, hds, hn⟩, hlt⟩
    exact ⟨ds, hds, n, hn, hlt⟩
  · rintro ⟨ds, hds, n, hn, hlt⟩
    exact ⟨n, ⟨ds, hds, hn⟩, hlt⟩

/-! ### Stretches of text -/

/-- A list is two parts with a separator between them if it is cut there in two, and no separator
within the parts makes for more cuts. -/
theorem eq_of_splitOn_eq_pair {x : Char} {cs a b : List Char} (h : cs.splitOn x = [a, b]) :
    cs = a ++ x :: b := by
  have hcs : [x].intercalate (cs.splitOn x) = cs := List.intercalate_splitOn x
  rw [← hcs, h]
  simp [List.intercalate]

theorem splitOn_pair {x : Char} {a b : List Char} (ha : x ∉ a) (hb : x ∉ b) :
    (a ++ x :: b).splitOn x = [a, b] := by
  have h : ([x].intercalate [a, b]).splitOn x = [a, b] :=
    List.splitOn_intercalate x (by simp [ha, hb]) (by simp)
  simpa [List.intercalate] using h

namespace Span

variable {cs : List Char} {text : String} {c : Int} {p : Position} {s : Span}

theorem coordinate?_eq_some : coordinate? cs = some c ↔
    ∃ n, Decimal.digits? cs = some n ∧ n < coordinateCount ∧ Int.bmod n coordinateCount = c := by
  simp [coordinate?, Option.bind_eq_some_iff, Option.filter_eq_some_iff, and_assoc]

theorem isSome_coordinate? :
    (coordinate? cs).isSome ↔ Decimal.Below coordinateCount cs := by
  simp only [Option.isSome_iff_exists, coordinate?_eq_some, ← Decimal.exists_digits?]
  constructor
  · rintro ⟨c, n, hn, hlt, -⟩
    exact ⟨n, hn, hlt⟩
  · rintro ⟨n, hn, hlt⟩
    exact ⟨_, n, hn, hlt, rfl⟩

theorem not_mem_of_coordinate? {x : Char} (hx : ¬ x.isDigit) (h : coordinate? cs = some c) :
    x ∉ cs :=
  fun hm => hx ((isSome_coordinate?.mp (Option.isSome_of_eq_some h)).2.1 x hm)

theorem position?_eq_some : position? cs = some p ↔ ∃ line column, cs = line ++ ':' :: column ∧
    coordinate? line = some p.line ∧ coordinate? column = some p.column := by
  unfold position?
  constructor
  · intro h
    split at h
    next line column hs =>
      obtain ⟨l, hl, h⟩ := Option.bind_eq_some_iff.mp h
      obtain ⟨c, hc, h⟩ := Option.bind_eq_some_iff.mp h
      cases h
      exact ⟨line, column, eq_of_splitOn_eq_pair hs, hl, hc⟩
    next => cases h
  · rintro ⟨line, column, rfl, hl, hc⟩
    have hcolon : ¬ ':'.isDigit := by decide
    rw [splitOn_pair (not_mem_of_coordinate? hcolon hl) (not_mem_of_coordinate? hcolon hc)]
    simp [hl, hc]

/-- A written position has no hyphen. -/
theorem not_mem_of_position? (h : position? cs = some p) : '-' ∉ cs := by
  obtain ⟨line, column, rfl, hl, hc⟩ := position?_eq_some.mp h
  have hhyphen : ¬ '-'.isDigit := by decide
  simp [not_mem_of_coordinate? hhyphen hl, not_mem_of_coordinate? hhyphen hc]

theorem read?_eq_some : read? text = some s ↔ ∃ start stop, text.toList = start ++ '-' :: stop ∧
    position? start = some s.start ∧ position? stop = some s.stop := by
  unfold read?
  constructor
  · intro h
    split at h
    next start stop hs =>
      obtain ⟨p, hp, h⟩ := Option.bind_eq_some_iff.mp h
      obtain ⟨q, hq, h⟩ := Option.bind_eq_some_iff.mp h
      cases h
      exact ⟨start, stop, eq_of_splitOn_eq_pair hs, hp, hq⟩
    next => cases h
  · rintro ⟨start, stop, htext, hp, hq⟩
    rw [htext, splitOn_pair (not_mem_of_position? hp) (not_mem_of_position? hq)]
    simp [hp, hq]

/-- The text is four numbers of 32 bits with the separators of a stretch between them. -/
def Written (text : String) : Prop :=
  ∃ line column line' column',
    text.toList = line ++ ':' :: column ++ '-' :: (line' ++ ':' :: column') ∧
    ∀ number ∈ [line, column, line', column'], Decimal.Below coordinateCount number

theorem isSome_position? : (position? cs).isSome ↔ ∃ line column, cs = line ++ ':' :: column ∧
    Decimal.Below coordinateCount line ∧ Decimal.Below coordinateCount column := by
  simp only [← isSome_coordinate?, Option.isSome_iff_exists, position?_eq_some]
  constructor
  · rintro ⟨p, line, column, h, hl, hc⟩
    exact ⟨line, column, h, ⟨_, hl⟩, ⟨_, hc⟩⟩
  · rintro ⟨line, column, h, ⟨l, hl⟩, ⟨c, hc⟩⟩
    exact ⟨⟨l, c⟩, line, column, h, hl, hc⟩

theorem isSome_read? : (read? text).isSome ↔ Written text := by
  have hread : (read? text).isSome ↔ ∃ start stop, text.toList = start ++ '-' :: stop ∧
      (position? start).isSome ∧ (position? stop).isSome := by
    simp only [Option.isSome_iff_exists, read?_eq_some]
    constructor
    · rintro ⟨s, start, stop, h, hp, hq⟩
      exact ⟨start, stop, h, ⟨_, hp⟩, ⟨_, hq⟩⟩
    · rintro ⟨start, stop, h, ⟨p, hp⟩, ⟨q, hq⟩⟩
      exact ⟨⟨p, q⟩, start, stop, h, hp, hq⟩
  simp only [hread, isSome_position?, Written, List.forall_mem_cons]
  constructor
  · rintro ⟨_, _, h, ⟨line, column, rfl, hl, hc⟩, ⟨line', column', rfl, hl', hc'⟩⟩
    exact ⟨line, column, line', column', h, hl, hc, hl', hc', by simp⟩
  · rintro ⟨line, column, line', column', h, hl, hc, hl', hc', -⟩
    exact ⟨_, _, h, ⟨line, column, rfl, hl, hc⟩, ⟨line', column', rfl, hl', hc'⟩⟩

end Span

end BranchTally
