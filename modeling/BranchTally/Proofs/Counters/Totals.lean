import BranchTally.Proofs.Counters.Reading

/-! Counts that many lines give for one tracker. No line gives a negative count, nor one that a word
does not hold; but the counts add up in words, and nothing looks at what they come to. Lines that
are appended to a text that is read are read with it, and the count kept for a tracker is the total
of its counts wrapped round. It is the total as long as a word holds that. It is negative if the
total lies in the upper half of the words, and what is appended makes it less exactly if the sum of
the two is no longer held. -/

namespace BranchTally

namespace Width

variable {a b n : Int}

theorem fit_nonneg_iff : 0 ≤ word.fit n ↔ n % wordCount < Counters.limit := by
  have hfit : word.fit n =
      if n % wordCount < (wordCount + 1) / 2 then n % wordCount else n % wordCount - wordCount :=
    Int.bmod_def n wordCount
  have h0 : 0 ≤ n % wordCount := Int.emod_nonneg n (by decide)
  have hlt : n % wordCount < wordCount := Int.emod_lt_of_pos n (by decide)
  unfold wordCount Counters.limit at *
  rw [hfit]
  split <;> omega

/-- A sum is less than what was added to exactly if it wraps round. -/
theorem add_lt_iff (ha : word.Keeps a) (hb0 : 0 ≤ b) (hb : b < Counters.limit) :
    word.add a b < a ↔ Counters.limit ≤ a + b := by
  unfold Counters.limit at *
  obtain ⟨hlo, hhi⟩ := keeps_word.mp ha
  by_cases h : a + b < 9223372036854775808
  · have hsum : word.add a b = a + b := keeps_word.mpr ⟨by omega, h⟩
    omega
  · have hwrap : word.fit (a + b - 18446744073709551616) = word.add a b :=
      Int.sub_bmod_right (a + b) wordCount
    have hkept : word.Keeps (a + b - 18446744073709551616) := keeps_word.mpr (by omega)
    rw [← hwrap, hkept]
    omega

end Width

namespace Counters

variable {c d : Counters} {text more : String} {id : TrackerId}
  {es fs : List (TrackerId × Int)}

theorem total_nonneg (h : read text = .ok c) : 0 ≤ c.total id := by
  obtain ⟨es, hes, rfl⟩ := read_eq_ok.mp h
  rw [total_ofList]
  exact hes.given_nonneg

theorem ofList_append : ofList (es ++ fs) = ofList fs ++ ofList es := by
  have h : (ofList (es ++ fs)).entries = (ofList fs ++ ofList es).entries := by
    rw [entries_append, entries_ofList, entries_ofList, entries_ofList, List.reverse_append]
  exact congrArg mk h

/-- Two texts that are read are read one after the other. -/
theorem read_append (hc : read text = .ok c) (hd : read more = .ok d) :
    read (text ++ "\n" ++ more) = .ok (d ++ c) := by
  obtain ⟨es, hes, rfl⟩ := read_eq_ok.mp hc
  obtain ⟨fs, hfs, rfl⟩ := read_eq_ok.mp hd
  have hlines : (text ++ "\n" ++ more).toList.splitOn '\n' =
      text.toList.splitOn '\n' ++ more.toList.splitOn '\n' := by
    have hcut : (text.toList ++ '\n' :: more.toList).splitOn '\n' =
        text.toList.splitOn '\n' ++ more.toList.splitOn '\n' :=
      List.splitOnP_append_cons text.toList more.toList (beq_self_eq_true '\n')
    simpa using hcut
  exact read_eq_ok.mpr ⟨es ++ fs, hlines ▸ hes.append hfs, ofList_append⟩

theorem hits_append : (d ++ c).hits .word id = Width.word.add (c.hits .word id) (d.total id) := by
  rw [hits, total_append, Int.add_comm]
  exact Int.bmod_add_bmod.symm

/-- What texts that are read keep for a tracker: its counts never come to less than zero, but they
are kept wrapped round, and no text is refused for what they come to. -/
theorem hits_of_appended (hc : read text = .ok c) (hd : read more = .ok d) (id : TrackerId) :
    0 ≤ c.total id ∧
    (c.total id < limit → c.hits .word id = c.total id) ∧
    (0 ≤ c.hits .word id ↔ c.total id % Width.wordCount < limit) ∧
    read (text ++ "\n" ++ more) = .ok (d ++ c) ∧
    (d ++ c).total id = c.total id + d.total id ∧
    (d.total id < limit →
      ((d ++ c).hits .word id < c.hits .word id ↔ limit ≤ c.hits .word id + d.total id)) := by
  refine ⟨total_nonneg hc, hits_eq_total (total_nonneg hc), Width.fit_nonneg_iff,
    read_append hc hd, ?total, ?less⟩
  case total => rw [total_append, Int.add_comm]
  case less =>
    intro hlt
    rw [hits_append]
    exact Width.add_lt_iff (Width.word.keeps_fit _) (total_nonneg hd) hlt

/-- A tracker that has counted as much as a word holds. -/
def brimming : String := "1 9223372036854775807"

theorem hits_of_appended_brimming :
    read (brimming ++ "\n" ++ "1 1") = .ok (ofList [(1, 1)] ++ ofList [(1, 9223372036854775807)]) ∧
    ((ofList [(1, 1)] ++ ofList [(1, 9223372036854775807)]).hits .word 1 <
      (ofList [(1, 9223372036854775807)]).hits .word 1) := by
  have hc : read brimming = .ok (ofList [(1, 9223372036854775807)]) := by decide +kernel
  have hd : read "1 1" = .ok (ofList [(1, 1)]) := by decide +kernel
  obtain ⟨-, -, -, hread, -, hless⟩ := hits_of_appended hc hd 1
  exact ⟨hread, (hless (by decide)).mpr (by decide)⟩

/-- One more count makes the total of a tracker negative. -/
theorem hits_brimming_over :
    read "1 9223372036854775807\n1 1\n" = .ok (ofList [(1, 9223372036854775807), (1, 1)]) ∧
    (ofList [(1, 9223372036854775807), (1, 1)]).total 1 = limit ∧
    (ofList [(1, 9223372036854775807), (1, 1)]).hits .word 1 = -9223372036854775808 ∧
    read "1 9223372036854775807\n" = .ok (ofList [(1, 9223372036854775807)]) ∧
    (ofList [(1, 9223372036854775807)]).hits .word 1 = 9223372036854775807 := by
  decide +kernel

end Counters

end BranchTally
