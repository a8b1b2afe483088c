import BranchTally.Proofs.Text.Fields
import BranchTally.Proofs.Text.Numerals

/-! The lines that list counts. A line is passed over, or it gives a count for a tracker: two
numerals with blanks between them, white space around. The reader of lines takes exactly these, no
line is both, and a line gives one count for one tracker, so that lines are either listed with their
counts in one way or have a first one among them that is neither. -/

namespace BranchTally

/-! ### Numerals with a sign -/

namespace Decimal

variable {cs : List Char} {c : Char} {k : Nat} {n : Int}

/-- One or more digits, and the number they denote. -/
def Denotes (ds : List Char) (k : Nat) : Prop :=
  ds ≠ [] ∧ (∀ c ∈ ds, c.isDigit) ∧ Nat.ofDigitChars 10 ds 0 = k

/-- An optional plus sign and digits. -/
def Unsigned (cs : List Char) (k : Nat) : Prop :=
  ∃ sign ds, cs = sign ++ ds ∧ (sign = [] ∨ sign = ['+']) ∧ Denotes ds k

/-- An optional sign and digits. -/
def Signed (cs : List Char) (n : Int) : Prop :=
  ∃ sign ds k, cs = sign ++ ds ∧ Denotes ds k ∧
    ((sign = [] ∨ sign = ['+']) ∧ n = k ∨ sign = ['-'] ∧ n = -(k : Int))

theorem Unsigned.signed (h : Unsigned cs k) : Signed cs k := by
  obtain ⟨sign, ds, hcs, hsign, hds⟩ := h
  exact ⟨sign, ds, k, hcs, hds, .inl ⟨hsign, rfl⟩⟩

theorem unsigned?_iff : unsigned? cs = some k ↔ Unsigned cs k := by
  rw [unsigned?_eq_some]
  constructor
  · rintro ⟨ds, rfl | rfl, hds⟩
    · exact ⟨[], cs, rfl, .inl rfl, digits?_eq_some.mp hds⟩
    · exact ⟨['+'], ds, rfl, .inr rfl, digits?_eq_some.mp hds⟩
  · rintro ⟨sign, ds, rfl, rfl | rfl, hds⟩
    · exact ⟨ds, .inl rfl, digits?_eq_some.mpr hds⟩
    · exact ⟨ds, .inr rfl, digits?_eq_some.mpr hds⟩

theorem signed?_iff : signed? cs = some n ↔ Signed cs n := by
  constructor
  · intro h
    unfold signed? at h
    split at h
    case h_1 ds =>
      obtain ⟨k, hk, rfl⟩ : ∃ k, digits? ds = some k ∧ -(k : Int) = n := by
        simpa [Option.bind_eq_some_iff] using h
      exact ⟨['-'], ds, k, rfl, digits?_eq_some.mp hk, .inr ⟨rfl, rfl⟩⟩
    case h_2 =>
      obtain ⟨k, hk, rfl⟩ : ∃ k, unsigned? cs = some k ∧ (k : Int) = n := by
        simpa [Option.bind_eq_some_iff] using h
      exact (unsigned?_iff.mp hk).signed
  · rintro ⟨sign, ds, k, rfl, hds, ⟨hsign, rfl⟩ | ⟨rfl, rfl⟩⟩
    · have hread : unsigned? (sign ++ ds) = some k := unsigned?_iff.mpr ⟨sign, ds, rfl, hsign, hds⟩
      unfold signed?
      split
      case h_1 heq => simp [heq, unsigned?, digits?] at hread
      case h_2 => simp [hread]
    · have hread : digits? ds = some k := digits?_eq_some.mpr hds
      simp [signed?, hread]

theorem not_isSpace_of_isDigit (h : c.isDigit) : ¬ Text.isSpace c := by
  simp only [Char.isDigit, Text.isSpace, Bool.and_eq_true, Bool.or_eq_true, decide_eq_true_eq,
    Char.le_def, UInt32.le_iff_toNat_le] at h ⊢
  rintro (rfl | ⟨-, hle⟩)
  · exact absurd h.1 (by decide)
  · exact absurd (h.1.trans hle) (by decide)

/-- A numeral is made of signs and digits. -/
theorem Signed.mem (h : Signed cs n) : ∀ c ∈ cs, c = '+' ∨ c = '-' ∨ c.isDigit := by
  obtain ⟨sign, ds, k, rfl, ⟨-, hds, -⟩, hsign⟩ := h
  intro c hc
  rcases List.mem_append.mp hc with hc | hc
  · rcases hsign with ⟨rfl | rfl, -⟩ | ⟨rfl, -⟩
    · cases hc
    · exact .inl (List.mem_singleton.mp hc)
    · exact .inr (.inl (List.mem_singleton.mp hc))
  · exact .inr (.inr (hds c hc))

theorem Signed.solid (h : Signed cs n) : Text.Solid cs := by
  constructor
  · obtain ⟨sign, ds, k, rfl, hds, -⟩ := h
    exact List.append_ne_nil_of_right_ne_nil sign hds.1
  · intro c hc
    rcases h.mem c hc with rfl | rfl | hdigit
    · decide
    · decide
    · exact not_isSpace_of_isDigit hdigit

end Decimal

namespace Counters

variable {line cs : List Char} {lines lines' : List (List Char)} {id other : TrackerId} {n m : Int}
  {es fs : List (TrackerId × Int)}

/-! ### Lines -/

/-- One past the greatest count. -/
def limit : Int := 9223372036854775808

/-- The text is a tracker's number. -/
def WritesTracker (cs : List Char) (id : TrackerId) : Prop :=
  Decimal.Unsigned cs id ∧ id < Width.wordCount

/-- The text is a count. -/
def WritesCount (cs : List Char) (n : Int) : Prop :=
  Decimal.Signed cs n ∧ 0 ≤ n ∧ n < limit

/-- The line gives a count for a tracker: the two with blanks between them, white space around. -/
def Entry (line : List Char) (id : TrackerId) (n : Int) : Prop :=
  ∃ pad tracker gap count pad', line = pad ++ tracker ++ gap ++ count ++ pad' ∧
    Text.Margin pad ∧ WritesTracker tracker id ∧ Text.Gap gap ∧ WritesCount count n ∧
    Text.Margin pad'

/-- The line is empty or starts with `#`, white space aside. -/
def Ignored (line : List Char) : Prop :=
  ∃ pad rest, line = pad ++ rest ∧ Text.Margin pad ∧ (rest = [] ∨ rest.head? = some '#')

/-- The line is passed over or gives a count. -/
def Legible (line : List Char) : Prop := Ignored line ∨ ∃ id n, Entry line id n

theorem read?_iff : TrackerId.read? cs = some id ↔ WritesTracker cs id := by
  simp [TrackerId.read?, WritesTracker, Option.filter_eq_some_iff, Decimal.unsigned?_iff]

theorem count?_iff : count? cs = some n ↔ WritesCount cs n := by
  have hlimit : 2 * n < Width.wordCount ↔ n < limit := by
    unfold Width.wordCount limit
    omega
  simp [count?, WritesCount, Option.filter_eq_some_iff, Decimal.signed?_iff, hlimit]

theorem readEntry_eq_ok : readEntry cs = .ok (id, n) ↔ ∃ tracker count,
    Text.fields cs = [tracker, count] ∧ WritesTracker tracker id ∧ WritesCount count n := by
  simp only [← read?_iff, ← count?_iff]
  constructor
  · intro h
    unfold readEntry at h
    split at h
    next tracker count hfields =>
      split at h
      next hid hn =>
        cases h
        exact ⟨tracker, count, hfields, hid, hn⟩
      next => cases h
    next => cases h
  · rintro ⟨tracker, count, hfields, hid, hn⟩
    simp [readEntry, hfields, hid, hn]

/-- The reader takes exactly the entries for entries. -/
theorem readEntry_trim : readEntry (Text.trim line) = .ok (id, n) ↔ Entry line id n := by
  rw [readEntry_eq_ok]
  constructor
  · rintro ⟨tracker, count, hfields, hid, hn⟩
    obtain ⟨pad, gap, pad', hline, hpad, hgap, hpad'⟩ := Text.exists_of_fields_trim hfields
    exact ⟨pad, tracker, gap, count, pad', hline, hpad, hid, hgap, hn, hpad'⟩
  · rintro ⟨pad, tracker, gap, count, pad', rfl, hpad, hid, hgap, hn, hpad'⟩
    exact ⟨tracker, count,
      Text.fields_trim_pair hpad hgap hpad' hid.1.signed.solid hn.1.solid, hid, hn⟩

theorem ignored_trim : ignored (Text.trim line) ↔ Ignored line := by
  constructor
  · intro h
    obtain ⟨pad, pad', hline, hpad, hpad'⟩ := Text.exists_margins line
    cases htrim : Text.trim line with
    | nil => exact ⟨line, [], by simp, Text.trim_eq_nil.mp htrim, .inl rfl⟩
    | cons d rest =>
      have hd : d = '#' := by simpa [ignored, htrim] using h
      refine ⟨pad, d :: rest ++ pad', ?_, hpad, .inr (by simp [hd])⟩
      rw [hline, htrim, List.append_assoc]
  · rintro ⟨pad, rest, rfl, hpad, rfl | hrest⟩
    · rw [List.append_nil, Text.trim_eq_nil.mpr hpad]
      rfl
    · obtain ⟨rest, rfl⟩ := List.head?_eq_some_iff.mp hrest
      simp [ignored, Text.head?_trim hpad (c := '#') (by decide)]

theorem ignored_trim_eq_false (h : ¬ Ignored line) : ignored (Text.trim line) = false :=
  Bool.eq_false_iff.mpr fun hignored => h (ignored_trim.mp hignored)

theorem Entry.not_ignored (h : Entry line id n) : ¬ Ignored line := by
  obtain ⟨pad, tracker, gap, count, pad', rfl, hpad, hid, -⟩ := h
  obtain ⟨d, ds, rfl⟩ := List.exists_cons_of_ne_nil hid.1.signed.solid.1
  have hline : pad ++ d :: ds ++ gap ++ count ++ pad' =
      pad ++ d :: (ds ++ gap ++ count ++ pad') := by simp
  have hd : d ≠ '#' := by
    rintro rfl
    simpa using hid.1.signed.mem '#' (by simp)
  rw [← ignored_trim, hline, ignored, Text.head?_trim hpad (hid.1.signed.solid.2 d (by simp))]
  simpa using hd

theorem Entry.unique (h : Entry line id n) (h' : Entry line other m) : id = other ∧ n = m := by
  have heq := (readEntry_trim.mpr h).symm.trans (readEntry_trim.mpr h')
  cases heq
  exact ⟨rfl, rfl⟩

/-! ### Texts -/

/-- The lines are legible and give these counts, in this order. -/
inductive Listed : List (List Char) → List (TrackerId × Int) → Prop where
  | nil : Listed [] []
  | skip {line : List Char} {lines : List (List Char)} {es : List (TrackerId × Int)} :
      Ignored line → Listed lines es → Listed (line :: lines) es
  | entry {line : List Char} {lines : List (List Char)} {es : List (TrackerId × Int)}
      {id : TrackerId} {n : Int} :
      Entry line id n → Listed lines es → Listed (line :: lines) ((id, n) :: es)

/-- Lines give their counts in one way. -/
theorem Listed.unique (h : Listed lines es) (h' : Listed lines fs) : es = fs := by
  induction h generalizing fs with
  | nil => cases h'; rfl
  | skip hline _ ih =>
    cases h' with
    | skip _ h' => exact ih h'
    | entry hentry _ => exact absurd hline hentry.not_ignored
  | entry hline _ ih =>
    cases h' with
    | skip hignored _ => exact absurd hignored hline.not_ignored
    | entry hentry h' =>
      obtain ⟨rfl, rfl⟩ := hline.unique hentry
      rw [ih h']

theorem exists_listed : (∃ es, Listed lines es) ↔ ∀ line ∈ lines, Legible line := by
  constructor
  · rintro ⟨es, h⟩
    induction h with
    | nil => simp
    | skip hline _ ih => exact List.forall_mem_cons.mpr ⟨.inl hline, ih⟩
    | entry hline _ ih => exact List.forall_mem_cons.mpr ⟨.inr ⟨_, _, hline⟩, ih⟩
  · intro h
    induction lines with
    | nil => exact ⟨[], .nil⟩
    | cons line lines ih =>
      obtain ⟨hline, hlines⟩ := List.forall_mem_cons.mp h
      obtain ⟨es, hes⟩ := ih hlines
      rcases hline with hline | ⟨id, n, hline⟩
      · exact ⟨es, .skip hline hes⟩
      · exact ⟨(id, n) :: es, .entry hline hes⟩

theorem Listed.append (h : Listed lines es) (h' : Listed lines' fs) :
    Listed (lines ++ lines') (es ++ fs) := by
  induction h with
  | nil => exact h'
  | skip hline _ ih => exact .skip hline ih
  | entry hline _ ih => exact .entry hline ih

/-- Either all lines are legible or there is a first one that is not. -/
theorem listed_or_illegible (lines : List (List Char)) : (∃ es, Listed lines es) ∨
    ∃ before line after, lines = before ++ line :: after ∧ (∀ l ∈ before, Legible l) ∧
      ¬ Legible line := by
  induction lines with
  | nil => exact .inl ⟨[], .nil⟩
  | cons line lines ih =>
    by_cases hline : Legible line
    · rcases ih with hlisted | ⟨before, bad, after, hlines, hbefore, hbad⟩
      · exact .inl (exists_listed.mpr
          (List.forall_mem_cons.mpr ⟨hline, exists_listed.mp hlisted⟩))
      · exact .inr ⟨line :: before, bad, after, by rw [hlines, List.cons_append],
          List.forall_mem_cons.mpr ⟨hline, hbefore⟩, hbad⟩
    · exact .inr ⟨[], line, lines, rfl, by simp, hline⟩

end Counters

end BranchTally
