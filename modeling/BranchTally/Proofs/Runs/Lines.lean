import BranchTally.Proofs.Runs.Agreement
import BranchTally.Proofs.Runs.Listing

/-! Listings of runs against the report. As demotion does nothing but set constructs that branch to zero,
the listing goes through the records of the report, and the warnings through those of them that ran and
were demoted. -/

namespace BranchTally

open BranchTally.Flow Flow.Derivation Flow.Evidence Report

namespace Runs

variable {t : Tree} {e : Evidence} {runs next out : Runs} {id i : NodeId} {ids : List NodeId}

/-! ### What demotion changes -/

theorem isBranching_of_parts {c : Construct} {part : Option Tally} (h : part ∈ c.parts t id) :
    c.kind.isBranching := by
  cases c <;> first | rfl | cases h

/-- A node that is demoted branches. -/
theorem Revisits.kept (h : Revisits e e.answer id runs next) (hi : ¬e.tree.branchesAt i) :
    next[i]? = runs[i]? := by
  cases h with
  | idle | keep => rfl
  | demote hv h0 hb hworst =>
    refine enter_of_ne ?_
    rintro rfl
    obtain ⟨n, hn, hparts⟩ := run_branches hb
    obtain ⟨part, hpart, -⟩ := exists_left_of_forall₂ hparts (List.min?_mem hworst)
    have hkind : n.kind.isBranching := isBranching_of_parts hpart
    exact hi (by simpa [Tree.branchesAt, hn] using hkind)

theorem run_demoteAll_kept (h : (demoteAll e runs ids).run e.answer = .ok out)
    (hi : ¬e.tree.branchesAt i) : out[i]? = runs[i]? := by
  induction ids generalizing runs with
  | nil =>
    cases h
    rfl
  | cons id ids ih =>
    obtain ⟨next, hstep, hrest⟩ := run_demoteAll_cons.mp h
    rw [ih hrest, hstep.kept hi]

/-- Demotion changes a node exactly if it branches, ran and is set to zero. -/
theorem changed_iff (h : (demoteAll e runs ids).run e.answer = .ok out) (i : NodeId) :
    runs[i]? ≠ out[i]? ↔ e.tree.branchesAt i ∧ runs[i]? ≠ some 0 ∧ out[i]? = some 0 := by
  obtain ⟨hsize, hvalues⟩ := run_demoteAll h
  constructor
  · intro hne
    have hbranches : e.tree.branchesAt i := by
      by_contra hi
      exact hne (run_demoteAll_kept h hi).symm
    have hlt : i < out.size := by
      by_contra hi
      have hout : out.size ≤ i := Nat.le_of_not_lt hi
      rw [Array.getElem?_eq_none hout, Array.getElem?_eq_none (hsize ▸ hout)] at hne
      exact hne rfl
    have hv := Array.getElem?_eq_getElem hlt
    rcases hvalues i _ hv with hsame | hzero
    · exact absurd (hsame.trans hv.symm) hne
    · rw [hzero] at hv
      exact ⟨hbranches, fun h0 => hne (h0.trans hv.symm), hv⟩
  · rintro ⟨-, h0, hz⟩ heq
    exact h0 (heq.trans hz)

/-! ### Listings and records -/

/-- If the records are those of the nodes that branch, then the nodes that demotion changes are those
of the records that ran and were set to zero. -/
theorem changed_nodes {rs : List Record} {swept : List NodeId}
    (hnodes : rs.map (·.node) = ids.filter e.tree.branchesAt)
    (h : (demoteAll e runs swept).run e.answer = .ok out) :
    (ids.filter fun id => runs[id]? ≠ out[id]?) =
      (rs.filter fun r => runs[r.node]? ≠ some 0 ∧ out[r.node]? = some 0).map (·.node) := by
  let demoted (id : NodeId) : Bool := runs[id]? ≠ some 0 ∧ out[id]? = some 0
  change _ = (rs.filter (demoted ∘ (·.node))).map (·.node)
  rw [← List.filter_map, hnodes, List.filter_filter]
  refine List.filter_congr fun id _ => ?_
  rw [Bool.eq_iff_iff]
  simpa [demoted, and_comm, and_assoc] using changed_iff h id

/-- On a loaded tree with a report and with runs before and after demotion, the listing is one line to
each record of the report, and the warnings are one line to each record of a construct that ran and was
demoted, in the order of the records; there are as many warnings as are counted, and no line goes on
over a line feed, as long as the unit's name does not. Lookups before and in between leave a sound
memory sound. -/
theorem lines_of_build {t : Tree} (ht : t.Loaded) (counters : Counters) (width : Width)
    (source : Source) {m m' m'' : Memory} (hm' : m'.Sound ⟨t, counters, width⟩)
    (hm'' : m''.Sound ⟨t, counters, width⟩) {rs : List Record} {raw demoted : Runs}
    (h : (build ⟨t, counters, width⟩ source m).result = .ok rs)
    (hraw : (Evidence.resume ⟨t, counters, width⟩ (Runs.raw t) m').1 = .ok raw)
    (hd : (Evidence.resume ⟨t, counters, width⟩ (demote ⟨t, counters, width⟩ raw) m'').1 =
      .ok demoted) (unit : String) :
    (∃ lines, List.Forall₂ (fun r => LineOf t raw demoted runLine r.node) rs lines ∧
      (list t raw demoted).text = unlines lines ∧ (list t raw demoted).result = .ok () ∧
      ∀ line ∈ lines, '\n' ∉ line.toList) ∧
    ∃ warnings, List.Forall₂ (fun r => LineOf t raw demoted (warningLine unit) r.node)
        (rs.filter fun r => raw[r.node]? ≠ some 0 ∧ demoted[r.node]? = some 0) warnings ∧
      (warn t unit raw demoted).text = unlines warnings ∧
      (warn t unit raw demoted).result = .ok warnings.length ∧
      ('\n' ∉ unit.toList → ∀ warning ∈ warnings, '\n' ∉ warning.toList) := by
  rw [(resume_eq ht.linked _ hm').1] at hraw
  rw [(resume_eq ht.linked _ hm'').1] at hd
  have hall := recorded_of_demote ht hraw hd
  have hnodes : rs.map (·.node) = t.preorder.filter t.branchesAt := nodes_of_build h
  obtain ⟨lines, hlines, hlist⟩ := lines_listAll hall
  obtain ⟨warnings, hwarnings, hwarn⟩ := lines_warnAll unit hall
  rw [← hnodes, List.forall₂_map_left_iff] at hlines
  rw [changed_nodes hnodes hd, List.forall₂_map_left_iff] at hwarnings
  refine ⟨⟨lines, hlines, ?_, ?_, fun line hline => ?_⟩, warnings, hwarnings, ?_, ?_,
    fun hunit warning hwarning => ?_⟩
  · rw [list, hlist]
  · rw [list, hlist]
  · obtain ⟨r, -, n, before, after, -, -, -, rfl⟩ := exists_left_of_forall₂ hlines hline
    exact lineFeed_not_mem_runLine n before after
  · rw [warn, hwarn]
  · rw [warn, hwarn]
  · obtain ⟨r, -, n, before, after, -, -, -, rfl⟩ := exists_left_of_forall₂ hwarnings hwarning
    exact lineFeed_not_mem_warningLine hunit n before after

/-- Of the constructs of `Tree.choosingEvidence` that branch, the three with a branch that is never taken
are warned of; the one that never ran is not. -/
theorem lines_of_build_choosing :
    let e := Tree.choosingEvidence
    let raw : Runs := #[3, 3, 1, 1, 0, 2, 2, 2, 2, 1, 1, 1, 1, 0]
    let demoted : Runs := #[0, 3, 0, 1, 0, 0, 2, 2, 2, 1, 1, 1, 1, 0]
    (build e ⟨[]⟩ e.memory).result = .ok choosingReport ∧
      (e.resume (Runs.raw e.tree) e.memory).1 = .ok raw ∧
      (e.resume (demote e raw) e.memory).1 = .ok demoted ∧
      (∃ lines : List String, lines.length = choosingReport.length ∧
        (list e.tree raw demoted).text = unlines lines) ∧
      (warn e.tree "unit.rb" raw demoted).result = .ok 3 := by
  intro e raw demoted
  have hr : (build e ⟨[]⟩ e.memory).result = .ok choosingReport := by decide +kernel
  have hraw : (e.resume (Runs.raw e.tree) e.memory).1 = .ok raw := by decide +kernel
  have hd : (e.resume (demote e raw) e.memory).1 = .ok demoted := by decide +kernel
  have hm := memory_sound e
  obtain ⟨⟨lines, hlines, htext, -, -⟩, warnings, hwarnings, -, hresult, -⟩ :=
    lines_of_build Tree.choosing_loaded e.counters e.width ⟨[]⟩ hm hm hr hraw hd "unit.rb"
  have hthree : (choosingReport.filter fun r =>
      raw[r.node]? ≠ some 0 ∧ demoted[r.node]? = some 0).length = 3 := by decide +kernel
  rw [← hwarnings.length_eq, hthree] at hresult
  exact ⟨hr, hraw, hd, ⟨lines, hlines.length_eq.symm, htext⟩, hresult⟩

end Runs

end BranchTally
