import BranchTally.Proofs.Flow.Checks
import BranchTally.Runs.Basic

/-! The two passes over the runs of a tree. The first enters the executions of the nodes. The second
revisits the nodes and takes them down: all that a step can do is to set the runs of the node at
hand to the least of its branches, and only if these are not covered, that is, to zero. What was
demoted stays demoted, and every other node keeps its runs. -/

namespace BranchTally.Runs

open BranchTally.Flow Flow.Derivation Flow.Evidence

variable {t : Tree} {e : Evidence} {f : Query → Except Fault Int} {runs next out : Runs}
  {id i : NodeId} {ids : List NodeId} {v : Int}

theorem at?_eq_ok : runs.at? id = .ok v ↔ runs[id]? = some v := by
  unfold at?
  cases runs[id]? <;> simp

theorem enter_self (h : id < runs.size) : (runs.enter id v)[id]? = some v := by
  simp [enter, h]

theorem enter_of_ne (h : i ≠ id) : (runs.enter id v)[i]? = runs[i]? := by
  rw [enter, Array.getElem?_setIfInBounds_ne h.symm]

@[simp] theorem size_enter : (runs.enter id v).size = runs.size := by
  simp [enter]

/-! ### Entering -/

/-- Every node that is gone through has its execution entered, and no other place changes. -/
theorem run_enterAll (h : (enterAll runs ids).run f = .ok out) :
    out.size = runs.size ∧
      (∀ i ∈ ids, i < runs.size → ∃ v, f (.execution i) = .ok v ∧ out[i]? = some v) ∧
      ∀ i ∉ ids, out[i]? = runs[i]? := by
  induction ids generalizing runs with
  | nil =>
    cases h
    simp
  | cons id ids ih =>
    obtain ⟨v, hv, h⟩ := run_bind_eq_ok.mp h
    rw [run_count] at hv
    obtain ⟨hsize, hin, hout⟩ := ih h
    rw [size_enter] at hsize hin
    refine ⟨hsize, fun i hi hlt => ?_, fun i hi => ?_⟩
    · by_cases hmem : i ∈ ids
      · exact hin i hmem hlt
      · obtain rfl : i = id := (List.mem_cons.mp hi).resolve_right hmem
        exact ⟨v, hv, by rw [hout i hmem, enter_self hlt]⟩
    · obtain ⟨hne, hmem⟩ := not_or.mp (mt List.mem_cons.mpr hi)
      rw [hout i hmem, enter_of_ne hne]

/-- The raw runs of the nodes that can be reached are their executions. -/
theorem run_raw (h : (raw t).run f = .ok out) :
    out.size = t.size ∧
      ∀ i ∈ t.preorder, i < t.size → ∃ v, f (.execution i) = .ok v ∧ out[i]? = some v := by
  obtain ⟨hsize, hin, -⟩ := run_enterAll h
  simpa using And.intro hsize hin

/-! ### Demoting -/

/-- Some nodes have been set to zero, and the others are as they were. -/
def Demotes (runs out : Runs) : Prop :=
  out.size = runs.size ∧
    ∀ (i : NodeId) (v : Int), out[i]? = some v → runs[i]? = some v ∨ v = 0

theorem Demotes.refl (runs : Runs) : runs.Demotes runs := ⟨rfl, fun _ _ h => .inl h⟩

theorem Demotes.trans (h : runs.Demotes next) (h' : next.Demotes out) : runs.Demotes out :=
  ⟨h'.1.trans h.1, fun i v hv => (h'.2 i v hv).elim (h.2 i v) .inr⟩

theorem Demotes.enter (runs : Runs) (id : NodeId) : runs.Demotes (runs.enter id 0) := by
  refine ⟨size_enter, fun i v hv => ?_⟩
  by_cases hi : i = id
  · subst hi
    have hlt : i < runs.size := size_enter ▸ (Array.getElem?_eq_some_iff.mp hv).1
    rw [enter_self hlt] at hv
    exact .inr (Option.some.inj hv).symm
  · rw [enter_of_ne hi] at hv
    exact .inl hv

/-- What is zero stays zero. -/
theorem Demotes.zero (h : runs.Demotes out) (hz : runs[i]? = some 0) : out[i]? = some 0 := by
  have hlt : i < out.size := h.1 ▸ (Array.getElem?_eq_some_iff.mp hz).1
  rcases h.2 i out[i] (Array.getElem?_eq_getElem hlt) with hv | hv
  · rw [hz, Option.some.injEq] at hv
    rw [Array.getElem?_eq_getElem hlt, ← hv]
  · rw [Array.getElem?_eq_getElem hlt, hv]

theorem Demotes.nonneg (h : runs.Demotes out)
    (hn : ∀ (i : NodeId) (v : Int), runs[i]? = some v → 0 ≤ v) (hv : out[i]? = some v) : 0 ≤ v := by
  rcases h.2 i v hv with hv | rfl
  · exact hn i v hv
  · exact Int.le_refl 0

/-- One node is revisited: a node that did not run is passed over, one of whose branches are all
covered keeps its runs, and one of whose branches the least did not run is set to zero. -/
inductive Revisits (e : Evidence) (f : Query → Except Fault Int) (id : NodeId) (runs : Runs) :
    Runs → Prop
  | idle : runs[id]? = some 0 → Revisits e f id runs runs
  | keep {v : Int} {branches : List Int} : runs[id]? = some v → v ≠ 0 →
    (Runs.branches e runs id).run f = .ok branches → branches.min? ≠ some 0 →
    Revisits e f id runs runs
  | demote {v : Int} {branches : List Int} : runs[id]? = some v → v ≠ 0 →
    (Runs.branches e runs id).run f = .ok branches → branches.min? = some 0 →
    Revisits e f id runs (runs.enter id 0)

theorem covered_of_ne (h : v ≠ 0) : covered v := by
  simp [covered, h]

/-- The least of the branches is covered unless it is zero. -/
theorem covered_of_min? {branches : List Int} {worst : Int} (hne : branches.min? ≠ some 0)
    (h : branches.min? = some worst) : covered worst :=
  covered_of_ne fun h0 => hne (h0 ▸ h)

theorem run_demoteAll_cons : (demoteAll e runs (id :: ids)).run f = .ok out ↔
    ∃ next, Revisits e f id runs next ∧ (demoteAll e next ids).run f = .ok out := by
  simp only [demoteAll, run_bind_eq_ok, run_lift, at?_eq_ok]
  constructor
  · rintro ⟨v, hv, h⟩
    by_cases h0 : v = 0
    · subst h0
      exact ⟨runs, .idle hv, h⟩
    rw [if_pos (covered_of_ne h0)] at h
    obtain ⟨branches, hb, h⟩ := run_bind_eq_ok.mp h
    by_cases hworst : branches.min? = some 0
    · rw [hworst] at h
      exact ⟨_, .demote hv h0 hb hworst, h⟩
    · refine ⟨runs, .keep hv h0 hb hworst, ?_⟩
      split at h
      next worst hw =>
        rwa [if_pos (covered_of_min? hworst hw)] at h
      next => exact h
  · rintro ⟨next, hstep, h⟩
    cases hstep with
    | idle hv => exact ⟨0, hv, h⟩
    | keep hv h0 hb hworst =>
      refine ⟨_, hv, ?_⟩
      rw [if_pos (covered_of_ne h0)]
      refine run_bind_eq_ok.mpr ⟨_, hb, ?_⟩
      split
      next worst hw =>
        rwa [if_pos (covered_of_min? hworst hw)]
      next => exact h
    | demote hv h0 hb hworst =>
      refine ⟨_, hv, ?_⟩
      rw [if_pos (covered_of_ne h0)]
      refine run_bind_eq_ok.mpr ⟨_, hb, ?_⟩
      rwa [hworst]

theorem Revisits.demotes (h : Revisits e f id runs next) : runs.Demotes next := by
  cases h with
  | idle | keep => exact .refl _
  | demote => exact .enter _ id

/-- Demotion does nothing but set some nodes to zero. -/
theorem run_demoteAll (h : (demoteAll e runs ids).run f = .ok out) : runs.Demotes out := by
  induction ids generalizing runs with
  | nil =>
    cases h
    exact .refl _
  | cons id ids ih =>
    obtain ⟨next, hstep, h⟩ := run_demoteAll_cons.mp h
    exact hstep.demotes.trans (ih h)

/-- A node is at zero in the end if, whatever was demoted before, the least of its branches is. -/
theorem run_demoteAll_zero (hid : id ∈ ids) (hlt : id < runs.size)
    (hleast : ∀ {next : Runs} {branches : List Int}, runs.Demotes next →
      (Runs.branches e next id).run f = .ok branches → branches.min? = some 0)
    (h : (demoteAll e runs ids).run f = .ok out) : out[id]? = some 0 := by
  induction ids generalizing runs with
  | nil => cases hid
  | cons i ids ih =>
    obtain ⟨next, hstep, hrest⟩ := run_demoteAll_cons.mp h
    by_cases hmem : id ∈ ids
    · exact ih hmem (hstep.demotes.1 ▸ hlt) (fun hd => hleast (hstep.demotes.trans hd)) hrest
    obtain rfl : id = i := (List.mem_cons.mp hid).resolve_right hmem
    refine (run_demoteAll hrest).zero ?_
    cases hstep with
    | idle hv => exact hv
    | keep hv h0 hb hworst => exact absurd (hleast (.refl runs) hb) hworst
    | demote => exact enter_self hlt

end BranchTally.Runs
