import BranchTally.Proofs.Counters.Format
import BranchTally.Proofs.Flow.Range
import Mathlib.Algebra.Ring.Int.Defs
import Mathlib.Data.Finset.Card

/-! Reading counts. A text is read exactly if each of its lines is passed over or gives a count, and
the counters that come of it hold for every tracker the sum of the counts that lines give for it.
Otherwise the reading stops at the first line that is neither, and names it by its number. -/

namespace BranchTally

namespace Counters

variable {c : Counters} {line : List Char} {lines : List (List Char)} {id : TrackerId} {n : Int}
  {es : List (TrackerId × Int)} {number : Nat}

/-! ### Lines one after another -/

/-- The counters with counts added. -/
def addAll (c : Counters) (es : List (TrackerId × Int)) : Counters :=
  es.foldl (fun c e => c.add e.1 e.2) c

theorem readLines_ignored (h : Ignored line) :
    readLines c number (line :: lines) = readLines c (number + 1) lines := by
  simp [readLines, ignored_trim.mpr h]

theorem readLines_entry (h : Entry line id n) :
    readLines c number (line :: lines) = readLines (c.add id n) (number + 1) lines := by
  simp [readLines, ignored_trim_eq_false h.not_ignored, readEntry_trim.mpr h]

theorem readLines_illegible (h : ¬ Legible line) : ∃ cause,
    readLines c number (line :: lines) = .error ⟨number, cause, Text.trim line⟩ := by
  have hnot := ignored_trim_eq_false fun hignored => h (.inl hignored)
  cases hread : readEntry (Text.trim line) with
  | ok e => exact absurd (.inr ⟨e.1, e.2, readEntry_trim.mp hread⟩) h
  | error cause => exact ⟨cause, by simp [readLines, hnot, hread]⟩

/-- Legible lines are read, whatever follows. -/
theorem readLines_append (c : Counters) (number : Nat) (lines' : List (List Char))
    (h : Listed lines es) : readLines c number (lines ++ lines') =
      readLines (c.addAll es) (number + lines.length) lines' := by
  induction h generalizing c number with
  | nil => rfl
  | @skip _ lines _ hline _ ih =>
    rw [List.cons_append, readLines_ignored hline, ih, List.length_cons]
    congr 1
    omega
  | @entry _ lines _ _ _ hline _ ih =>
    rw [List.cons_append, readLines_entry hline, ih, List.length_cons]
    congr 1
    omega

theorem readLines_of_listed (c : Counters) (number : Nat) (h : Listed lines es) :
    readLines c number lines = .ok (c.addAll es) := by
  have happend := readLines_append c number [] h
  rwa [List.append_nil] at happend

theorem read_of_listed {text : String} (h : Listed (text.toList.splitOn '\n') es) :
    read text = .ok (ofList es) :=
  readLines_of_listed empty 1 h

/-- The reading stops at the first line that is not legible. -/
theorem readLines_of_illegible (c : Counters) (number : Nat) {before : List (List Char)}
    (after : List (List Char)) (hbefore : ∀ l ∈ before, Legible l) (hline : ¬ Legible line) :
    ∃ cause, readLines c number (before ++ line :: after) =
      .error ⟨number + before.length, cause, Text.trim line⟩ := by
  obtain ⟨es, hes⟩ := exists_listed.mpr hbefore
  rw [readLines_append c number _ hes]
  exact readLines_illegible hline

/-- The line that stops the reading is one of those read. -/
theorem line_of_readLines {fault : ReadFault} (h : readLines c number lines = .error fault) :
    number ≤ fault.line ∧ fault.line < number + lines.length := by
  rcases listed_or_illegible lines with ⟨es, hes⟩ | ⟨before, line, after, rfl, hbefore, hline⟩
  · rw [readLines_of_listed c number hes] at h
    cases h
  · obtain ⟨cause, hread⟩ := readLines_of_illegible c number after hbefore hline
    cases hread.symm.trans h
    rw [List.length_append, List.length_cons]
    show number ≤ number + before.length ∧ number + before.length < _
    omega

/-- In a text whose lines can be numbered with 32 bits, so is the line that stops the reading. -/
theorem bmod_line_of_read {text : String} {fault : ReadFault} (h : read text = .error fault)
    (hlines : (Text.lines text.toList).length < Span.coordinateLimit) :
    Int.bmod fault.line Span.coordinateCount = fault.line := by
  have hline : fault.line < 1 + (Text.lines text.toList).length := (line_of_readLines h).2
  apply Span.bmod_of_lt
  omega

/-! ### Sums -/

/-- The counts given for a tracker, added up. -/
def given (es : List (TrackerId × Int)) (id : TrackerId) : Int :=
  ((es.filter fun e => e.1 = id).map (·.2)).sum

theorem given_cons (e : TrackerId × Int) (es : List (TrackerId × Int)) (id : TrackerId) :
    given (e :: es) id = (if e.1 = id then e.2 else 0) + given es id := by
  by_cases h : e.1 = id <;> simp [given, h]

theorem given_of_not_mem (h : id ∉ es.map (·.1)) : given es id = 0 := by
  have hnone : es.filter (fun e => e.1 = id) = [] := by
    rw [List.filter_eq_nil_iff]
    intro e he
    simpa using fun hid => h (List.mem_map.mpr ⟨e, he, hid⟩)
  rw [given, hnone]
  rfl

theorem total_addAll (c : Counters) (es : List (TrackerId × Int)) (id : TrackerId) :
    (c.addAll es).total id = c.total id + given es id := by
  induction es generalizing c with
  | nil => simp [addAll, given]
  | cons e es ih =>
    have hstep : c.addAll (e :: es) = (c.add e.1 e.2).addAll es := rfl
    rw [hstep, ih, total_add, given_cons]
    omega

theorem total_ofList : (ofList es).total id = given es id := by
  have h := total_addAll empty es id
  rwa [total_empty, Int.zero_add] at h

theorem Listed.given_nonneg (h : Listed lines es) : 0 ≤ given es id := by
  induction h with
  | nil => exact Int.le_refl 0
  | skip _ _ ih => exact ih
  | entry hline _ ih =>
    obtain ⟨_, _, _, _, _, -, -, -, -, hn, -⟩ := hline
    rw [given_cons]
    split
    · exact Int.add_nonneg hn.2.1 ih
    · omega

theorem entries_addAll (c : Counters) (es : List (TrackerId × Int)) :
    (c.addAll es).entries = es.reverse ++ c.entries := by
  induction es generalizing c with
  | nil => rfl
  | cons e es ih =>
    have hstep : c.addAll (e :: es) = (c.add e.1 e.2).addAll es := rfl
    rw [hstep, ih, add, List.reverse_cons, List.append_assoc, List.singleton_append]

theorem nodup_eraseDups {α : Type} [DecidableEq α] : ∀ xs : List α, xs.eraseDups.Nodup
  | [] => by simp
  | x :: xs => by
    rw [List.eraseDups_cons, List.nodup_cons, List.mem_eraseDups]
    exact ⟨by simp, nodup_eraseDups _⟩
termination_by xs => xs.length
decreasing_by exact Nat.lt_succ_of_le (List.length_filter_le ..)

theorem size_eq_card (c : Counters) : c.size = (c.entries.map (·.1)).toFinset.card := by
  have hsame : (c.entries.map (·.1)).eraseDups.toFinset = (c.entries.map (·.1)).toFinset := by
    ext id
    simp only [List.mem_toFinset, List.mem_eraseDups]
  rw [size, ← hsame, List.toFinset_card_of_nodup (nodup_eraseDups _)]

theorem entries_ofList : (ofList es).entries = es.reverse := by
  have h := entries_addAll empty es
  rwa [empty, List.append_nil] at h

theorem size_ofList : (ofList es).size = (es.map (·.1)).toFinset.card := by
  rw [size_eq_card, entries_ofList, List.map_reverse, List.toFinset_reverse]

/-- The count kept for a tracker is what was counted, if a word holds it. -/
theorem hits_eq_total (h0 : 0 ≤ c.total id) (h : c.total id < limit) :
    c.hits .word id = c.total id :=
  Width.keeps_word.mpr ⟨by omega, h⟩

theorem Listed.hits_eq_given (h : Listed lines es) (hlt : given es id < limit) :
    (ofList es).hits .word id = given es id := by
  rw [← total_ofList] at hlt ⊢
  exact hits_eq_total (by rw [total_ofList]; exact h.given_nonneg) hlt

/-! ### Texts -/

/-- A text is read to its end or to its first line that is not legible. -/
theorem read_cases (text : String) :
    (∃ es, Listed (text.toList.splitOn '\n') es ∧ read text = .ok (ofList es)) ∨
    ∃ before line after cause, text.toList.splitOn '\n' = before ++ line :: after ∧
      (∀ l ∈ before, Legible l) ∧ ¬ Legible line ∧
      read text = .error ⟨1 + before.length, cause, Text.trim line⟩ := by
  rcases listed_or_illegible (text.toList.splitOn '\n') with
    ⟨es, hes⟩ | ⟨before, line, after, hlines, hbefore, hline⟩
  · exact .inl ⟨es, hes, read_of_listed hes⟩
  · obtain ⟨cause, hread⟩ := readLines_of_illegible empty 1 after hbefore hline
    refine .inr ⟨before, line, after, cause, hlines, hbefore, hline, ?_⟩
    rw [← hread, ← hlines]
    rfl

theorem read_eq_ok {text : String} : read text = .ok c ↔
    ∃ es, Listed (text.toList.splitOn '\n') es ∧ ofList es = c := by
  constructor
  · intro h
    rcases read_cases text with ⟨es, hes, hread⟩ | ⟨_, _, _, _, -, -, -, hread⟩
    · exact ⟨es, hes, by simpa [hread] using h⟩
    · simp [hread] at h
  · rintro ⟨es, hes, rfl⟩
    exact read_of_listed hes

/-- A message starts with the name and the number of the line. -/
theorem exists_message_eq (name : String) (f : ReadFault) :
    ∃ rest, f.message name = name ++ ":" ++ toString f.line ++ ": error: " ++ rest := by
  obtain ⟨line, cause, text⟩ := f
  cases cause with
  | notTwoFields =>
    exact ⟨"expected 'tracker count', got '" ++ String.ofList text ++ "'",
      by simp only [ReadFault.message, String.append_assoc]⟩
  | badNumber =>
    exact ⟨"bad counter entry '" ++ String.ofList text ++ "'",
      by simp only [ReadFault.message, String.append_assoc]⟩

/-- A text is read exactly if each of its lines is passed over or gives a count for a tracker. What
is read holds the sum of the counts given for each tracker, as far as words hold them, and has the
size of the set of trackers. If the text is not read, the message names the first line that is
neither, by its number among all lines. -/
theorem read_by_lines (text name : String) :
    ((∃ c, read text = .ok c) ↔ ∀ line ∈ text.toList.splitOn '\n', Legible line) ∧
    (∀ c, read text = .ok c → ∃ es, Listed (text.toList.splitOn '\n') es ∧
      (∀ id, given es id < limit → c.hits .word id = given es id) ∧
      (∀ id, id ∉ es.map (·.1) → c.hits .word id = 0) ∧
      c.size = (es.map (·.1)).toFinset.card) ∧
    ∀ fault, read text = .error fault → ∃ before line after rest,
      text.toList.splitOn '\n' = before ++ line :: after ∧ (∀ l ∈ before, Legible l) ∧
      ¬ Legible line ∧
      fault.message name = name ++ ":" ++ toString (before.length + 1) ++ ": error: " ++ rest := by
  refine ⟨⟨?legible, ?reads⟩, ?counters, ?fault⟩
  case legible =>
    rintro ⟨c, hc⟩
    obtain ⟨es, hes, -⟩ := read_eq_ok.mp hc
    exact exists_listed.mp ⟨es, hes⟩
  case reads =>
    intro h
    obtain ⟨es, hes⟩ := exists_listed.mpr h
    exact ⟨_, read_of_listed hes⟩
  case counters =>
    intro c hc
    obtain ⟨es, hes, rfl⟩ := read_eq_ok.mp hc
    refine ⟨es, hes, fun id => hes.hits_eq_given, fun id hid => ?_, size_ofList⟩
    have h0 := given_of_not_mem hid
    rw [hes.hits_eq_given (by rw [h0]; decide), h0]
  case fault =>
    intro fault hfault
    rcases read_cases text with ⟨es, -, hread⟩ | ⟨before, line, after, cause, hlines, hbefore,
      hline, hread⟩
    · simp [hread] at hfault
    · obtain rfl := Except.error.inj (hread.symm.trans hfault)
      obtain ⟨rest, hmessage⟩ := exists_message_eq name ⟨1 + before.length, cause, Text.trim line⟩
      exact ⟨before, line, after, rest, hlines, hbefore, hline,
        by rw [hmessage, Nat.add_comm before.length 1]⟩

/-- Counts with a comment, an empty line, white space and a tracker that is counted twice. -/
def tallies : String := "# tracker hits\n1 4\n\n  2\t0  \n3   12\r\n1 +1"

/-- Counts with a line that gives none. -/
def garbled : String := "1 2\n\nfoo bar\n"

theorem read_by_lines_tallies :
    read tallies = .ok (ofList [(1, 4), (2, 0), (3, 12), (1, 1)]) ∧
    (∀ line ∈ tallies.toList.splitOn '\n', Legible line) ∧
    (∃ es, Listed (tallies.toList.splitOn '\n') es ∧
      (ofList [(1, 4), (2, 0), (3, 12), (1, 1)]).size = (es.map (·.1)).toFinset.card) ∧
    ∃ fault before line after, read garbled = .error fault ∧
      garbled.toList.splitOn '\n' = before ++ line :: after ∧ ¬ Legible line := by
  have hread : read tallies = .ok (ofList [(1, 4), (2, 0), (3, 12), (1, 1)]) := by decide +kernel
  have hgarbled : read garbled = .error ⟨3, .badNumber, "foo bar".toList⟩ := by decide +kernel
  obtain ⟨es, hes, -, -, hsize⟩ := (read_by_lines tallies "unit.counts").2.1 _ hread
  obtain ⟨before, line, after, rest, hlines, -, hline, -⟩ :=
    (read_by_lines garbled "unit.counts").2.2 _ hgarbled
  exact ⟨hread, (read_by_lines tallies "unit.counts").1.mp ⟨_, hread⟩, ⟨es, hes, hsize⟩,
    _, before, line, after, hgarbled, hlines, hline⟩

end Counters

end BranchTally
