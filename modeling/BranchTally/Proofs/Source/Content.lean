import BranchTally.Source
import Mathlib.Data.List.Basic
import Mathlib.Order.Bounds.Defs

/-! Where content starts in a program text. A point of the text holds content, seen from a start, if it
does not come before the start, has a byte that is not white space, and no comment between the start and
it on its own line. Looking past white space and comments leads to the first such point, and to the end
of the text if there is none; looking from there once more leads nowhere else. -/

namespace BranchTally

theorem Position.le_iff {p q : Position} :
    p ≤ q ↔ p.line < q.line ∨ p.line = q.line ∧ p.column ≤ q.column := by
  obtain ⟨l, c⟩ := p
  obtain ⟨l', c'⟩ := q
  change (l < l' ∨ l = l' ∧ c < c') ∨ Position.mk l c = ⟨l', c'⟩ ↔ l < l' ∨ l = l' ∧ c ≤ c'
  rw [Position.mk.injEq]
  omega

theorem Position.le_antisymm {p q : Position} (h : p ≤ q) (h' : q ≤ p) : p = q := by
  obtain ⟨l, c⟩ := p
  obtain ⟨l', c'⟩ := q
  rw [Position.le_iff] at h h'
  rw [Position.mk.injEq]
  dsimp only at h h'
  omega

/-- The point with these coordinates in 32 bits. -/
def Position.narrow (p : Position) : Position :=
  ⟨p.line.bmod Span.coordinateCount, p.column.bmod Span.coordinateCount⟩

/-- The lines of a text and the columns in them can be numbered by coordinates. -/
structure Source.Numbered (s : Source) : Prop where
  lines : s.lineCount < Span.coordinateLimit
  columns : ∀ row ∈ s.lines, row.length < Span.coordinateLimit

namespace Source

variable {s : Source} {span : Span} {p q start : Position} {row : List UInt8} {l c column : Nat}

/-! ### Points of a text -/

/-- The byte at a point; beside the text there is none. -/
def byteAt? (s : Source) (p : Position) : Option UInt8 :=
  if 1 ≤ p.line ∧ 0 ≤ p.column then
    s.lines[(p.line - 1).toNat]?.bind fun row => row[p.column.toNat]?
  else none

/-- A point that holds content, seen from a start. -/
structure Content (s : Source) (start p : Position) : Prop where
  after : start ≤ p
  byte : ∃ b, s.byteAt? p = some b ∧ ¬isSpace b
  clear : ∀ q, q.line = p.line → q.column ≤ p.column → start ≤ q → s.byteAt? q ≠ some hash

/-- The point at a byte, by the numbers of its line and of itself on the line from zero. -/
def place (l c : Nat) : Position := ⟨(l + 1 : Nat), c⟩

theorem place_le {l' c' : Nat} : place l c ≤ place l' c' ↔ l < l' ∨ l = l' ∧ c ≤ c' := by
  rw [Position.le_iff]
  simp only [place]
  omega

theorem byteAt?_eq_some {b : UInt8} : s.byteAt? p = some b ↔
    ∃ l c row, p = place l c ∧ s.lines[l]? = some row ∧ row[c]? = some b := by
  unfold byteAt?
  constructor
  · intro h
    split at h
    next hp =>
      obtain ⟨row, hrow, hb⟩ := Option.bind_eq_some_iff.mp h
      refine ⟨_, _, row, ?_, hrow, hb⟩
      obtain ⟨l, c⟩ := p
      simp only [place, Position.mk.injEq]
      dsimp only at hp
      omega
    next => cases h
  · rintro ⟨l, c, row, rfl, hrow, hb⟩
    have hl : ((place l c).line - 1).toNat = l := by
      simp only [place]
      omega
    rw [if_pos (by simp only [place]; omega), hl, hrow]
    exact hb

/-! ### Content on a line -/

/-- A column that holds content, seen from a column on the same line. -/
structure ContentIn (row : List UInt8) (start c : Nat) : Prop where
  after : start ≤ c
  byte : ∃ b, row[c]? = some b ∧ ¬isSpace b
  clear : ∀ j, start ≤ j → j ≤ c → row[j]? ≠ some hash

/-- Content after a point stands on the line of the point from its column on, or on a later line. -/
theorem content_iff : s.Content (place l column) p ↔ ∃ l' c row, p = place l' c ∧
    s.lines[l']? = some row ∧ l ≤ l' ∧ ContentIn row (if l' = l then column else 0) c := by
  constructor
  · rintro ⟨hafter, ⟨b, hb, hspace⟩, hclear⟩
    obtain ⟨l', c, row, rfl, hrow, hbyte⟩ := byteAt?_eq_some.mp hb
    have hle := place_le.mp hafter
    refine ⟨l', c, row, rfl, hrow, by omega, ⟨?_, ⟨b, hbyte, hspace⟩, fun j hj hjc hhash => ?_⟩⟩
    · split <;> omega
    · have hplace : place l column ≤ place l' j := place_le.mpr (by split at hj <;> omega)
      exact hclear (place l' j) rfl (by simp only [place]; omega) hplace
        (byteAt?_eq_some.mpr ⟨l', j, row, rfl, hrow, hhash⟩)
  · rintro ⟨l', c, row, rfl, hrow, hl, ⟨hafter, ⟨b, hbyte, hspace⟩, hclear⟩⟩
    refine ⟨place_le.mpr (by split at hafter <;> omega),
      ⟨b, byteAt?_eq_some.mpr ⟨l', c, row, rfl, hrow, hbyte⟩, hspace⟩, ?_⟩
    intro q hq hqc hstart hhash
    obtain ⟨l'', j, row', rfl, hrow', hj⟩ := byteAt?_eq_some.mp hhash
    obtain rfl : l'' = l' := by
      simp only [place] at hq
      omega
    obtain rfl := Option.some.inj (hrow.symm.trans hrow')
    have hle := place_le.mp hstart
    refine hclear j (by split <;> omega) ?_ hj
    simp only [place] at hqc
    omega

/-! ### Looking for content -/

/-- The least of the values with a property, or none if there are none. -/
def Finds {α : Type} [LE α] (P : α → Prop) : Option α → Prop
  | some a => IsLeast {x | P x} a
  | none => ∀ x, ¬P x

theorem finds_congr {α : Type} [LE α] {P Q : α → Prop} (h : ∀ x, P x ↔ Q x) {o : Option α} :
    Finds P o ↔ Finds Q o := by
  rw [show P = Q from funext fun x => propext (h x)]

theorem of_drop_eq_cons {α : Type} {xs rest : List α} {k : Nat} {a : α}
    (h : xs.drop k = a :: rest) : xs[k]? = some a ∧ xs.drop (k + 1) = rest := by
  rw [← List.head?_drop, ← List.tail_drop, h]
  exact ⟨rfl, rfl⟩

theorem not_isSpace_hash : isSpace hash = false := by decide

/-- White space before content is passed over. -/
theorem contentIn_succ {b : UInt8} (hb : row[column]? = some b) (hspace : isSpace b) :
    ContentIn row column c ↔ ContentIn row (column + 1) c := by
  have hhash : b ≠ hash := by
    rintro rfl
    simp [not_isSpace_hash] at hspace
  constructor
  · rintro ⟨hafter, ⟨d, hd, hdspace⟩, hclear⟩
    have hne : column ≠ c := by
      rintro rfl
      cases hb.symm.trans hd
      exact hdspace hspace
    exact ⟨by omega, ⟨d, hd, hdspace⟩, fun j hj => hclear j (by omega)⟩
  · rintro ⟨hafter, hbyte, hclear⟩
    refine ⟨by omega, hbyte, fun j hj hjc => ?_⟩
    rcases Nat.eq_or_lt_of_le hj with rfl | hlt
    · rwa [hb, ne_eq, Option.some.injEq]
    · exact hclear j hlt hjc

/-- On a line the first column with content is found. -/
theorem finds_contentColumn (row : List UInt8) (column : Nat) :
    Finds (ContentIn row column) (contentColumn? column (row.drop column)) := by
  induction h : row.drop column generalizing column with
  | nil =>
    have hlength : row.length ≤ column := List.drop_eq_nil_iff.mp h
    rintro c ⟨hafter, ⟨b, hb, -⟩, -⟩
    have hlt := (List.getElem?_eq_some_iff.mp hb).1
    omega
  | cons b bytes ih =>
    obtain ⟨hb, hrest⟩ := of_drop_eq_cons h
    rw [contentColumn?]
    split
    next hspace =>
      exact (finds_congr fun c => contentIn_succ hb hspace).mpr (ih (column + 1) hrest)
    split
    next hspace hhash =>
      intro c hc
      exact hc.clear column (Nat.le_refl column) hc.after (hhash ▸ hb)
    next hspace hhash =>
      refine ⟨⟨Nat.le_refl column, ⟨b, hb, hspace⟩, fun j hj hjc => ?_⟩, fun c hc => hc.after⟩
      obtain rfl : j = column := Nat.le_antisymm hjc hj
      rwa [hb, ne_eq, Option.some.injEq]

/-- The first content of a line is the first of the text from there on. -/
theorem isLeast_of_row (hrow : s.lines[l]? = some row) (h : IsLeast {c | ContentIn row column c} c) :
    IsLeast {p | s.Content (place l column) p} (place l c) := by
  constructor
  · refine content_iff.mpr ⟨l, c, row, rfl, hrow, Nat.le_refl l, ?_⟩
    rw [if_pos rfl]
    exact h.1
  · intro p hp
    obtain ⟨l', c', row', rfl, hrow', hl, hcontent⟩ := content_iff.mp hp
    refine place_le.mpr ?_
    rcases Nat.eq_or_lt_of_le hl with rfl | hlt
    · obtain rfl := Option.some.inj (hrow.symm.trans hrow')
      rw [if_pos rfl] at hcontent
      exact .inr ⟨rfl, h.2 hcontent⟩
    · exact .inl hlt

/-- A line without content is passed over. -/
theorem content_nextRow (hrow : s.lines[l]? = some row) (h : ∀ c, ¬ContentIn row column c) :
    s.Content (place l column) p ↔ s.Content (place (l + 1) 0) p := by
  rw [content_iff, content_iff]
  constructor
  · rintro ⟨l', c', row', rfl, hrow', hl, hcontent⟩
    have hll : l' ≠ l := by
      rintro rfl
      obtain rfl := Option.some.inj (hrow.symm.trans hrow')
      rw [if_pos rfl] at hcontent
      exact h c' hcontent
    rw [if_neg hll] at hcontent
    exact ⟨l', c', row', rfl, hrow', by omega, by rwa [ite_self]⟩
  · rintro ⟨l', c', row', rfl, hrow', hl, hcontent⟩
    rw [ite_self] at hcontent
    exact ⟨l', c', row', rfl, hrow', by omega, by rwa [if_neg (by omega)]⟩

/-- In a text the first point with content is found. The induction is on the lines that are left. -/
theorem finds_firstContent (s : Source) (l column : Nat) :
    Finds (s.Content (place l column)) (firstContent? (l + 1) column (s.lines.drop l)) := by
  induction h : s.lines.drop l generalizing l column with
  | nil =>
    have hlength : s.lines.length ≤ l := List.drop_eq_nil_iff.mp h
    intro p hp
    obtain ⟨l', c, row, -, hrow, hl, -⟩ := content_iff.mp hp
    have hlt := (List.getElem?_eq_some_iff.mp hrow).1
    omega
  | cons row rows ih =>
    obtain ⟨hrow, hrest⟩ := of_drop_eq_cons h
    have hfinds := finds_contentColumn row column
    rw [firstContent?]
    cases hc : contentColumn? column (row.drop column) with
    | some c =>
      rw [hc] at hfinds
      exact isLeast_of_row hrow hfinds
    | none =>
      rw [hc] at hfinds
      exact (finds_congr fun _ => content_nextRow hrow hfinds).mpr (ih (l + 1) 0 hrest)

/-! ### Looking past a stretch -/

theorem contentStart_of_outside
    (h : s.isEmpty ∨ span.stop.line < 1 ∨ s.lineCount < span.stop.line) :
    s.contentStart span = span.stop := by
  unfold isEmpty lineCount at h
  unfold contentStart
  dsimp only
  rw [if_pos]
  simpa [or_assoc] using h

/-- From within the lines of the text content is looked for from the end of the stretch on, or from
the next line on if the end stands before its line. -/
theorem contentStart_of_inside (h1 : 1 ≤ span.stop.line) (h2 : span.stop.line ≤ s.lineCount) :
    ∃ l c, (0 ≤ span.stop.column → span.stop = place l c) ∧
      s.contentStart span = (firstContent? (l + 1) c (s.lines.drop l)).getD s.stop := by
  obtain ⟨start, ⟨line, column⟩⟩ := span
  dsimp only at h1 h2
  obtain ⟨l, rfl⟩ : ∃ l : Nat, line = (l + 1 : Nat) := ⟨line.toNat - 1, by omega⟩
  unfold lineCount at h2
  have hinside : ¬(s.lines.isEmpty || ((l + 1 : Nat) : Int) < 1 ||
      (s.lines.length : Int) < (l + 1 : Nat)) := by
    have hne : s.lines ≠ [] := List.ne_nil_of_length_pos (by omega)
    simp only [Bool.or_eq_true, decide_eq_true_eq, List.isEmpty_iff, hne, false_or]
    omega
  unfold contentStart
  dsimp only
  rw [if_neg hinside]
  by_cases hc : column < 0
  · exact ⟨l + 1, 0, fun h => absurd h (by omega), by rw [if_pos hc]; rfl⟩
  · refine ⟨l, column.toNat, fun _ => ?_, by rw [if_neg hc]; rfl⟩
    simp only [place, Position.mk.injEq, true_and]
    omega

/-- What is found within the lines of a text is its first content, or else the end of the text. -/
theorem isLeast_or_stop (s : Source) (l c : Nat) :
    let found := (firstContent? (l + 1) c (s.lines.drop l)).getD s.stop
    IsLeast {p | s.Content (place l c) p} found ∨
      (∀ p, ¬s.Content (place l c) p) ∧ found = s.stop := by
  have hfinds := finds_firstContent s l c
  cases h : firstContent? (l + 1) c (s.lines.drop l) with
  | none =>
    rw [h] at hfinds
    exact .inr ⟨hfinds, rfl⟩
  | some p =>
    rw [h] at hfinds
    exact .inl hfinds

/-! ### Looking once more -/

/-- What holds content seen from before holds content seen from itself. -/
theorem Content.self (h : s.Content start p) : s.Content p p where
  after := Position.le_iff.mpr (.inr ⟨rfl, Int.le_refl _⟩)
  byte := h.byte
  clear q hq hqc hp := by
    refine h.clear q hq hqc ?_
    have hafter := Position.le_iff.mp h.after
    have hq' := Position.le_iff.mp hp
    exact Position.le_iff.mpr (by omega)

theorem contentStart_of_place (hl : l < s.lineCount) (hp : span.stop = place l c) :
    s.contentStart span = (firstContent? (l + 1) c (s.lines.drop l)).getD s.stop := by
  have h1 : 1 ≤ span.stop.line := by
    rw [hp]
    simp only [place]
    omega
  have h2 : span.stop.line ≤ s.lineCount := by
    rw [hp]
    simp only [place]
    omega
  obtain ⟨l', c', hplace, hfound⟩ := contentStart_of_inside h1 h2
  have hsame : place l c = place l' c' := by
    rw [← hp]
    exact hplace (by rw [hp]; exact Int.natCast_nonneg c)
  simp only [place, Position.mk.injEq] at hsame
  obtain ⟨rfl, rfl⟩ : l = l' ∧ c = c' := by omega
  exact hfound

theorem contentStart_of_content (h : s.Content start p) (hp : span.stop = p) :
    s.contentStart span = p := by
  have hself := h.self
  obtain ⟨b, hb, -⟩ := h.byte
  obtain ⟨l, c, row, rfl, hrow, -⟩ := byteAt?_eq_some.mp hb
  rw [contentStart_of_place (List.getElem?_eq_some_iff.mp hrow).1 hp]
  rcases isLeast_or_stop s l c with hleast | ⟨hnone, -⟩
  · exact Position.le_antisymm (hleast.2 hself) hleast.1.after
  · exact absurd hself (hnone _)

theorem exists_last (h : s.lines ≠ []) : ∃ row, s.lines[s.lineCount - 1]? = some row ∧
    s.stop = place (s.lineCount - 1) row.length := by
  have hpos : 0 < s.lineCount := List.length_pos_of_ne_nil h
  refine ⟨s.lines.getLast h, ?_, ?_⟩
  · rw [lineCount, ← List.getLast?_eq_getElem?, List.getLast?_eq_some_getLast h]
  · simp only [stop, List.getLast?_eq_some_getLast h, place, Position.mk.injEq, and_true]
    unfold lineCount at hpos ⊢
    omega

/-- Behind the end of the text there is no content. -/
theorem contentStart_of_stop (h : s.lines ≠ []) (hp : span.stop = s.stop) :
    s.contentStart span = s.stop := by
  obtain ⟨row, hrow, hstop⟩ := exists_last h
  have hl : s.lineCount - 1 < s.lineCount := (List.getElem?_eq_some_iff.mp hrow).1
  rw [contentStart_of_place hl (hp.trans hstop)]
  rcases isLeast_or_stop s (s.lineCount - 1) row.length with hleast | ⟨-, hfound⟩
  · obtain ⟨l', c, row', -, hrow', hle, hafter, ⟨b, hb, -⟩, -⟩ := content_iff.mp hleast.1
    have hlt : l' < s.lineCount := (List.getElem?_eq_some_iff.mp hrow').1
    obtain rfl : l' = s.lineCount - 1 := by omega
    obtain rfl := Option.some.inj (hrow.symm.trans hrow')
    rw [if_pos rfl] at hafter
    exact absurd (List.getElem?_eq_some_iff.mp hb).1 (Nat.not_lt.mpr hafter)
  · exact hfound

theorem contentStart_again {again : Span} (h : again.stop = s.contentStart span) :
    s.contentStart again = s.contentStart span := by
  by_cases hout : s.isEmpty ∨ span.stop.line < 1 ∨ s.lineCount < span.stop.line
  · rw [contentStart_of_outside hout] at h ⊢
    rw [contentStart_of_outside (by rwa [h]), h]
  · simp only [not_or, Int.not_lt] at hout
    obtain ⟨hne, h1, h2⟩ := hout
    obtain ⟨l, c, -, hfound⟩ := contentStart_of_inside h1 h2
    rcases isLeast_or_stop s l c with hleast | ⟨-, hstop⟩
    · rw [← hfound] at hleast
      exact contentStart_of_content hleast.1 h
    · rw [hstop] at hfound
      rw [hfound] at h ⊢
      exact contentStart_of_stop (by simpa [isEmpty] using hne) h

/-! ### The width of coordinates -/

theorem narrow_place (hl : l + 1 < Span.coordinateLimit) (hc : c < Span.coordinateLimit) :
    (place l c).narrow = place l c := by
  simp only [Position.narrow, place, Span.bmod_of_lt hl, Span.bmod_of_lt hc]

theorem Numbered.narrow_place (h : s.Numbered) (hrow : s.lines[l]? = some row)
    (hc : c ≤ row.length) : (place l c).narrow = place l c := by
  have hl : l < s.lineCount := (List.getElem?_eq_some_iff.mp hrow).1
  have hlines := h.lines
  have hcolumns := h.columns row (List.mem_of_getElem? hrow)
  exact Source.narrow_place (by omega) (by omega)

theorem Numbered.narrow_stop (h : s.Numbered) : s.stop.narrow = s.stop := by
  by_cases hempty : s.lines = []
  · simp only [stop, hempty, List.getLast?_nil]
    decide
  · obtain ⟨row, hrow, hstop⟩ := exists_last hempty
    rw [hstop]
    exact h.narrow_place hrow (Nat.le_refl _)

/-- In a text whose lines and columns can be numbered, coordinates of 32 bits name the point where
content starts as it is. -/
theorem Numbered.narrow_contentStart (h : s.Numbered) (hspan : span.stop.narrow = span.stop) :
    (s.contentStart span).narrow = s.contentStart span := by
  by_cases hout : s.isEmpty ∨ span.stop.line < 1 ∨ s.lineCount < span.stop.line
  · rw [contentStart_of_outside hout, hspan]
  · simp only [not_or, Int.not_lt] at hout
    obtain ⟨l, c, -, hfound⟩ := contentStart_of_inside hout.2.1 hout.2.2
    rw [hfound]
    rcases isLeast_or_stop s l c with hleast | ⟨-, hstop⟩
    · obtain ⟨b, hb, -⟩ := hleast.1.byte
      obtain ⟨l', c', row, hplace, hrow, hc⟩ := byteAt?_eq_some.mp hb
      rw [hplace]
      exact h.narrow_place hrow (Nat.le_of_lt (List.getElem?_eq_some_iff.mp hc).1)
    · rw [hstop]
      exact h.narrow_stop

/-! ### Texts -/

theorem length_toList_loop (bs : ByteArray) (i : Nat) (r : List UInt8) :
    (ByteArray.toList.loop bs i r).length = bs.size - i + r.length := by
  fun_induction ByteArray.toList.loop bs i r with
  | case1 i r h ih =>
    rw [ih, List.length_cons]
    omega
  | case2 i r h =>
    rw [List.length_reverse]
    omega

theorem toUTF8_eq_nil {text : String} : text.toUTF8.toList = [] ↔ text = "" := by
  constructor
  · intro h
    have hlength := length_toList_loop text.toUTF8 0 []
    change text.toUTF8.toList.length = _ at hlength
    rw [h, List.length_nil] at hlength
    have hsize : text.toUTF8.size = 0 := by omega
    exact String.toByteArray_eq_empty_iff.mp (ByteArray.size_eq_zero_iff.mp hsize)
  · rintro rfl
    exact ByteArray.toList_empty

theorem not_mem_splitOnP {α : Type} {p : α → Bool} (xs : List α) :
    ∀ piece ∈ xs.splitOnP p, ∀ x ∈ piece, p x = false := by
  induction xs with
  | nil => simp
  | cons x xs ih =>
    rw [List.splitOnP_cons_eq_if_modifyHead]
    split
    next hx =>
      exact List.forall_mem_cons.mpr ⟨by simp, ih⟩
    next hx =>
      cases h : xs.splitOnP p with
      | nil => exact absurd h (List.splitOnP_ne_nil p xs)
      | cons first rest =>
        rw [h, List.forall_mem_cons] at ih
        rw [List.modifyHead_cons]
        refine List.forall_mem_cons.mpr ⟨List.forall_mem_cons.mpr ⟨by simpa using hx, ih.1⟩, ih.2⟩

/-- The lines of a text are what stands between its line feeds; only the empty text has none. -/
theorem lines_ofText (text : String) : ((ofText text).isEmpty ↔ text = "") ∧
    [lineFeed].intercalate (ofText text).lines = text.toUTF8.toList ∧
    ∀ row ∈ (ofText text).lines, lineFeed ∉ row := by
  rw [isEmpty, List.isEmpty_iff, ofText]
  dsimp only
  rw [← toUTF8_eq_nil]
  split
  next h =>
    rw [List.isEmpty_iff] at h
    rw [h]
    exact ⟨by simp, rfl, by simp⟩
  next h =>
    rw [List.isEmpty_iff] at h
    refine ⟨iff_of_false (List.splitOn_ne_nil lineFeed _) h, List.intercalate_splitOn lineFeed, ?_⟩
    intro row hrow hmem
    have hnot := not_mem_splitOnP _ row hrow lineFeed hmem
    simp at hnot

/-- The text of a source is looked through, from the end of a stretch within its lines on, for the first
point that holds content; the end of the text stands in for it if there is none. Without any text, or
from outside its lines, nothing is looked past. To look again from what was found leads to the same. -/
theorem contentStart_isLeast (s : Source) (span : Span) :
    (1 ≤ span.stop.line → span.stop.line ≤ s.lineCount → 0 ≤ span.stop.column →
      IsLeast {p | s.Content span.stop p} (s.contentStart span) ∨
        (∀ p, ¬s.Content span.stop p) ∧ s.contentStart span = s.stop) ∧
    (s.isEmpty ∨ span.stop.line < 1 ∨ s.lineCount < span.stop.line →
      s.contentStart span = span.stop) ∧
    (∀ again : Span, again.stop = s.contentStart span →
      s.contentStart again = s.contentStart span) ∧
    ∀ text, s = ofText text → (s.isEmpty ↔ text = "") ∧
      [lineFeed].intercalate s.lines = text.toUTF8.toList ∧ ∀ row ∈ s.lines, lineFeed ∉ row := by
  refine ⟨fun h1 h2 hc => ?_, contentStart_of_outside, fun again => contentStart_again, ?_⟩
  · obtain ⟨l, c, hplace, hfound⟩ := contentStart_of_inside h1 h2
    rw [hplace hc, hfound]
    exact isLeast_or_stop s l c
  · rintro text rfl
    exact lines_ofText text

/-- Two comments, a blank line and a line that starts with content after some white space. -/
def remarked : Source := .ofText "when 1 # one # two\n\n\t # three\n  work\n"

theorem contentStart_isLeast_remarked :
    let span : Span := ⟨⟨1, 0⟩, ⟨1, 6⟩⟩
    IsLeast {p | remarked.Content ⟨1, 6⟩ p} ⟨4, 2⟩ ∧ remarked.contentStart span = ⟨4, 2⟩ ∧
      remarked.contentStart ⟨⟨9, 9⟩, ⟨4, 2⟩⟩ = ⟨4, 2⟩ ∧
      remarked.contentStart ⟨⟨1, 0⟩, ⟨6, 0⟩⟩ = ⟨6, 0⟩ ∧ remarked.isEmpty = false := by
  intro span
  have hfound : remarked.contentStart span = ⟨4, 2⟩ := by decide +kernel
  have hstop : remarked.stop = ⟨5, 0⟩ := by decide +kernel
  have hlines : remarked.lineCount = 5 := by decide +kernel
  obtain ⟨hinside, -, hagain, htext⟩ := contentStart_isLeast remarked span
  have houtside := (contentStart_isLeast remarked ⟨⟨1, 0⟩, ⟨6, 0⟩⟩).2.1
    (.inr (.inr (by rw [hlines]; decide)))
  refine ⟨?_, hfound, hfound ▸ hagain ⟨⟨9, 9⟩, ⟨4, 2⟩⟩ hfound.symm, houtside, ?_⟩
  · rcases hinside (by decide) (by rw [hlines]; decide) (by decide) with hleast | ⟨-, hnone⟩
    · rwa [hfound] at hleast
    · rw [hfound, hstop] at hnone
      exact absurd hnone (by decide)
  · rw [← Bool.not_eq_true]
    exact mt (htext _ rfl).1.mp (by decide)

end Source

end BranchTally
