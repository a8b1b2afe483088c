import BranchTally.Text.Fields
import Mathlib.Data.List.DropRight

/-! What is left of a text without the white space at its ends, and what stands between the runs of
blanks within it. However much white space is put around a text that has none at its ends, the text
is what is left; a text has two fields if two stretches without blanks stand in it and nothing but
blanks besides, some of them between the two. -/

namespace BranchTally.Text

variable {cs core pad pad' a b gap rest : List Char} {c : Char} {p : Char → Bool}

/-- White space alone, or nothing. -/
def Margin (cs : List Char) : Prop := ∀ c ∈ cs, isSpace c

/-- One or more blanks. -/
def Gap (cs : List Char) : Prop := cs ≠ [] ∧ ∀ c ∈ cs, isBlank c

/-- One or more characters with no blank among them. -/
def Field (cs : List Char) : Prop := cs ≠ [] ∧ ∀ c ∈ cs, ¬ isBlank c

/-- One or more characters with no white space among them. -/
def Solid (cs : List Char) : Prop := cs ≠ [] ∧ ∀ c ∈ cs, ¬ isSpace c

theorem isSpace_of_isBlank (h : isBlank c) : isSpace c := by
  simp only [isBlank, Bool.or_eq_true, decide_eq_true_eq] at h
  rcases h with rfl | rfl <;> decide

theorem Margin.append (h : Margin a) (h' : Margin b) : Margin (a ++ b) :=
  List.forall_mem_append.mpr ⟨h, h'⟩

theorem margin_of_blank (h : ∀ c ∈ cs, isBlank c) : Margin cs :=
  fun c hc => isSpace_of_isBlank (h c hc)

theorem Solid.field (h : Solid cs) : Field cs :=
  ⟨h.1, fun c hc hb => h.2 c hc (isSpace_of_isBlank hb)⟩

/-! ### The ends of a text -/

theorem dropWhile_pad (hpad : ∀ c ∈ pad, p c) (hcs : ∀ c ∈ cs.head?, ¬ p c) :
    (pad ++ cs).dropWhile p = cs := by
  rw [List.dropWhile_append_of_pos hpad]
  cases cs with
  | nil => rfl
  | cons c cs => exact List.dropWhile_cons_of_neg (hcs c rfl)

theorem rdropWhile_pad (hpad : ∀ c ∈ pad, p c) (hcs : ∀ c ∈ cs.getLast?, ¬ p c) :
    (cs ++ pad).rdropWhile p = cs := by
  have hdrop : (pad.reverse ++ cs.reverse).dropWhile p = cs.reverse :=
    dropWhile_pad (by simpa using hpad) (by simpa using hcs)
  rw [List.rdropWhile, List.reverse_append, hdrop, List.reverse_reverse]

theorem trim_eq (cs : List Char) : trim cs = (cs.dropWhile isSpace).rdropWhile isSpace := rfl

theorem trim_eq_nil : trim cs = [] ↔ Margin cs := by
  rw [trim_eq, List.rdropWhile_eq_nil_iff]
  constructor
  · intro hdrop
    rw [← List.takeWhile_append_dropWhile (p := isSpace) (l := cs)]
    exact Margin.append (fun c hc => List.mem_takeWhile_imp hc) hdrop
  · intro h
    simp [List.dropWhile_eq_nil_iff.mpr h]

/-- Only white space is taken off. -/
theorem exists_margins (cs : List Char) :
    ∃ pad pad', cs = pad ++ trim cs ++ pad' ∧ Margin pad ∧ Margin pad' := by
  refine ⟨cs.takeWhile isSpace, (cs.dropWhile isSpace).rtakeWhile isSpace, ?_,
    fun c hc => List.mem_takeWhile_imp hc, fun c hc => List.mem_rtakeWhile_imp hc⟩
  rw [trim_eq, List.append_assoc, List.rdropWhile_append_rtakeWhile,
    List.takeWhile_append_dropWhile]

/-- All white space at the ends is taken off. -/
theorem trim_pad (hpad : Margin pad) (hpad' : Margin pad') (hne : core ≠ [])
    (hhead : ∀ c ∈ core.head?, ¬ isSpace c) (hlast : ∀ c ∈ core.getLast?, ¬ isSpace c) :
    trim (pad ++ core ++ pad') = core := by
  have hdrop : (pad ++ (core ++ pad')).dropWhile isSpace = core ++ pad' :=
    dropWhile_pad hpad (by rwa [List.head?_append_of_ne_nil core hne])
  rw [List.append_assoc, trim_eq, hdrop]
  exact rdropWhile_pad hpad' hlast

/-- What a text starts with, white space aside, is kept. -/
theorem head?_trim (hpad : Margin pad) (hc : ¬ isSpace c) :
    (trim (pad ++ c :: rest)).head? = some c := by
  have hdrop : (pad ++ c :: rest).dropWhile isSpace = c :: rest :=
    dropWhile_pad hpad (by simpa using hc)
  have hpre : trim (pad ++ c :: rest) <+: c :: rest := by
    rw [trim_eq, hdrop]
    exact List.rdropWhile_prefix isSpace _
  rcases List.prefix_cons_iff.mp hpre with h | ⟨tail, h, -⟩
  · exact absurd (trim_eq_nil.mp h c (by simp)) hc
  · rw [h, List.head?_cons]

/-! ### Fields -/

@[simp] theorem fields_nil : fields [] = [] := by
  simp [fields]

theorem fields_word (h : Field a) : fields a = [a] := by
  have hsplit : a.splitOnP isBlank = [a] :=
    List.splitOnP_eq_singleton fun c hc => Bool.eq_false_iff.mpr (h.2 c hc)
  simp [fields, hsplit, h.1]

theorem fields_word_append (h : Field a) (hc : isBlank c) :
    fields (a ++ c :: cs) = a :: fields cs := by
  have hword := fields_word h
  unfold fields at hword ⊢
  rw [List.splitOnP_append_cons _ _ hc, List.filter_append, hword, List.singleton_append]

theorem fields_blank_cons (hc : isBlank c) : fields (c :: cs) = fields cs := by
  have hsplit : (c :: cs).splitOnP isBlank = [] :: cs.splitOnP isBlank := by
    have h := List.splitOnP_append_cons [] cs hc
    rwa [List.splitOnP_nil] at h
  simp [fields, hsplit]

theorem fields_blank_append (h : ∀ c ∈ pad, isBlank c) : fields (pad ++ cs) = fields cs := by
  induction pad with
  | nil => rfl
  | cons c pad ih =>
    obtain ⟨hc, hpad⟩ := List.forall_mem_cons.mp h
    rw [List.cons_append, fields_blank_cons hc, ih hpad]

theorem fields_of_blank (h : ∀ c ∈ cs, isBlank c) : fields cs = [] := by
  have happend : fields (cs ++ []) = fields [] := fields_blank_append h
  rwa [List.append_nil, fields_nil] at happend

/-- What does not start with a blank starts with a field. -/
theorem exists_field (cs : List Char) (hc : ¬ isBlank c) :
    ∃ a rest, c :: cs = a ++ rest ∧ Field a ∧ ∀ d ∈ rest.head?, isBlank d := by
  have hhead : (!isBlank c) = true := by simpa using hc
  refine ⟨(c :: cs).takeWhile (fun d => !isBlank d), (c :: cs).dropWhile (fun d => !isBlank d),
    List.takeWhile_append_dropWhile.symm, ⟨?nonempty, ?inside⟩, ?after⟩
  case nonempty =>
    rw [List.takeWhile_cons_of_pos (p := fun d => !isBlank d) hhead]
    exact List.cons_ne_nil _ _
  case inside =>
    intro d hd
    simpa using List.mem_takeWhile_imp hd
  case after =>
    intro d hd
    have hnot := List.head?_dropWhile_not (fun d => !isBlank d) (c :: cs)
    rw [Option.mem_def.mp hd] at hnot
    simpa using hnot

theorem fields_append (ha : Field a) (hrest : ∀ c ∈ rest.head?, isBlank c) :
    fields (a ++ rest) = a :: fields rest := by
  cases rest with
  | nil => rw [List.append_nil, fields_word ha, fields_nil]
  | cons c rest => rw [fields_word_append ha (hrest c rfl), fields_blank_cons (hrest c rfl)]

/-- Either a text is blank or it has a first field, with blanks before and right after it. -/
theorem fields_cases (cs : List Char) :
    (∀ c ∈ cs, isBlank c) ∨
    ∃ pad a rest, cs = pad ++ a ++ rest ∧ (∀ c ∈ pad, isBlank c) ∧ Field a ∧
      (∀ c ∈ rest.head?, isBlank c) ∧ fields cs = a :: fields rest := by
  induction cs with
  | nil => exact .inl (by simp)
  | cons c cs ih =>
    by_cases hc : isBlank c
    · rcases ih with h | ⟨pad, a, rest, hcs, hpad, ha, hrest, hfields⟩
      · exact .inl (List.forall_mem_cons.mpr ⟨hc, h⟩)
      · refine .inr ⟨c :: pad, a, rest, by simp [hcs], List.forall_mem_cons.mpr ⟨hc, hpad⟩, ha,
          hrest, ?_⟩
        rw [fields_blank_cons hc, hfields]
    · obtain ⟨a, rest, hcs, ha, hrest⟩ := exists_field cs hc
      refine .inr ⟨[], a, rest, hcs, by simp, ha, hrest, ?_⟩
      rw [hcs, fields_append ha hrest]

/-- Two fields have one or more blanks between them, and blanks alone around them. -/
theorem exists_gap (h : fields cs = [a, b]) : ∃ pad gap pad',
    cs = pad ++ a ++ gap ++ b ++ pad' ∧ (∀ c ∈ pad, isBlank c) ∧ Gap gap ∧
      ∀ c ∈ pad', isBlank c := by
  rcases fields_cases cs with hblank | ⟨pad, a', rest, rfl, hpad, -, hrest, hfields⟩
  · simp [fields_of_blank hblank] at h
  obtain ⟨rfl, hafter⟩ := List.cons.inj (hfields.symm.trans h)
  rcases fields_cases rest with hblank | ⟨gap, b', pad', rfl, hgap, hb, -, hfields'⟩
  · simp [fields_of_blank hblank] at hafter
  obtain ⟨rfl, hnone⟩ := List.cons.inj (hfields'.symm.trans hafter)
  rcases fields_cases pad' with hpad' | ⟨_, _, _, _, _, _, _, hsome⟩
  · refine ⟨pad, gap, pad', by simp, hpad, ⟨?_, hgap⟩, hpad'⟩
    rintro rfl
    -- without a gap the first field would go on into the second
    obtain ⟨c, b, rfl⟩ := List.exists_cons_of_ne_nil hb.1
    exact hb.2 c (by simp) (hrest c rfl)
  · simp [hnone] at hsome

/-! ### Lines of two fields -/

/-- The two fields of a line, its white space at the ends aside. -/
theorem exists_of_fields_trim (h : fields (trim cs) = [a, b]) : ∃ pad gap pad',
    cs = pad ++ a ++ gap ++ b ++ pad' ∧ Margin pad ∧ Gap gap ∧ Margin pad' := by
  obtain ⟨left, right, hcs, hleft, hright⟩ := exists_margins cs
  obtain ⟨pad, gap, pad', htrim, hpad, hgap, hpad'⟩ := exists_gap h
  refine ⟨left ++ pad, gap, pad' ++ right, ?_, hleft.append (margin_of_blank hpad), hgap,
    (margin_of_blank hpad').append hright⟩
  rw [hcs, htrim]
  simp

theorem trim_pair (hpad : Margin pad) (hpad' : Margin pad') (ha : Solid a) (hb : Solid b) :
    trim (pad ++ a ++ gap ++ b ++ pad') = a ++ gap ++ b := by
  have hcore : pad ++ a ++ gap ++ b ++ pad' = pad ++ (a ++ gap ++ b) ++ pad' := by simp
  rw [hcore]
  refine trim_pad hpad hpad' (by simp [ha.1]) ?_ ?_
  · intro c hc
    rw [List.append_assoc, List.head?_append_of_ne_nil a ha.1] at hc
    exact ha.2 c (List.mem_of_head? hc)
  · intro c hc
    rw [List.getLast?_append_of_ne_nil _ hb.1] at hc
    exact hb.2 c (List.mem_of_getLast? hc)

theorem fields_trim_pair (hpad : Margin pad) (hgap : Gap gap) (hpad' : Margin pad') (ha : Solid a)
    (hb : Solid b) : fields (trim (pad ++ a ++ gap ++ b ++ pad')) = [a, b] := by
  have hhead : ∀ c ∈ (gap ++ b).head?, isBlank c := by
    intro c hc
    rw [List.head?_append_of_ne_nil gap hgap.1] at hc
    exact hgap.2 c (List.mem_of_head? hc)
  rw [trim_pair hpad hpad' ha hb, List.append_assoc, fields_append ha.field hhead,
    fields_blank_append hgap.2, fields_word hb.field]

end BranchTally.Text
