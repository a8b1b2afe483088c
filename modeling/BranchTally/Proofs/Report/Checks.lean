import BranchTally.Proofs.Flow.Backward
import BranchTally.Proofs.Flow.Range
import BranchTally.Proofs.Report.Completeness
import BranchTally.Proofs.Report.Separation

/-! What a report has checked. A report derives the counts of the branches that it shows and what
these rest on, and nothing else: no count of a branch is negative or exceeds its entry, unless a
tracker alone tells it. From this the completions of some constructs follow, if those of their
branches come out. The way out of a loop and the completions of loops and dispatches are not
derived, and may be contradictory in spite of the report. -/

namespace BranchTally

open BranchTally.Flow Flow.Derivation Flow.Evidence Report

/-! ### Outlets and exits -/

/-- The branches of a construct that are nodes. -/
def Construct.outlets (t : Tree) : Construct → List NodeId
  | .conditional _ _ whenTrue whenFalse => whenTrue.toList ++ whenFalse.toList
  | .dispatch _ arms otherwise => arms.filterMap t.armBody? ++ otherwise.toList
  | .shortCircuit _ _ right => right.toList
  | .loop _ _ _ body => body.toList
  | _ => []

/-- The nodes through which control falls out of a construct that decides between two ways. -/
def Construct.exits : Construct → List NodeId
  | .conditional _ _ whenTrue whenFalse => whenTrue.toList ++ whenFalse.toList
  | .shortCircuit _ _ right => right.toList
  | .safeNavigation _ arguments => arguments.getLast?.toList
  | _ => []

/-- A construct that decides between two ways by counts of its slots alone: a conditional, a
short-circuit whose right operand is executed as often as it is entered, or a safe navigation whose
call has no tracker. No slot holds a handler arm, which its entry would not bound. -/
def Tree.Decides (t : Tree) (n : Node) : Prop :=
  (∀ c ∈ n.construct.present, ∀ m, t.nodes[c]? = some m → m.kind ≠ .handler) ∧
    match n.construct with
    | .conditional .. => True
    | .shortCircuit _ _ right =>
      ∀ c m, right = some c → t.nodes[c]? = some m → m.kind ≠ .rescue
    | .safeNavigation .. => n.tracker? .completion = none ∧ n.tracker? .nilReceiver = none
    | _ => False

/-- A branch that is a node is counted by its execution. -/
theorem Construct.mem_scheme_of_outlet {c : Construct} {t : Tree} {id i : NodeId} {tag : Tag}
    {outs : List (Tag × Option Tally)} (h : c.scheme t id = some (tag, outs))
    (hi : i ∈ c.outlets t) : ∃ out ∈ outs, out.2 = some (.derived (.execution i)) := by
  cases c with
  | conditional style =>
    cases style <;> cases h <;> simp only [outlets, List.mem_append, Option.mem_toList] at hi <;>
      rcases hi with rfl | rfl <;> simp [entered]
  | dispatch subject arms otherwise =>
    cases h
    simp only [outlets, List.mem_append, List.mem_filterMap, Option.mem_toList] at hi
    rcases hi with ⟨arm, harm, hbody⟩ | rfl
    · refine ⟨entered .whenTag (t.armBody? arm), ?_, by rw [hbody]; rfl⟩
      exact List.mem_append_left _ (List.mem_map_of_mem harm)
    · exact ⟨_, List.mem_append_right _ List.mem_cons_self, rfl⟩
  | shortCircuit op =>
    cases op <;> cases h <;> simp only [outlets, Option.mem_toList] at hi <;> subst hi <;>
      simp [entered]
  | loop polarity =>
    cases polarity <;> cases h <;> simp only [outlets, Option.mem_toList] at hi <;> subst hi <;>
      simp [entered]
  | _ => cases hi

/-- The branch without a node of a short-circuit or of a safe navigation is shown. -/
theorem Construct.mem_scheme_of_implicit {c : Construct} {t : Tree} {id : NodeId} {tag : Tag}
    {outs : List (Tag × Option Tally)} (h : c.scheme t id = some (tag, outs))
    (hk : c.kind = .shortCircuit ∨ c.kind = .safeNavigation) :
    ∃ out ∈ outs, out.2 = some (.derived (.implicitBranch id)) := by
  cases c with
  | shortCircuit op => cases op <;> cases h <;> simp
  | safeNavigation => cases h; simp
  | _ => simp [kind] at hk

namespace Flow.Evidence

variable {e : Evidence} {i c : NodeId} {n : Node} {u v : Int} {ids : List NodeId} {fault : Fault}

/-! ### What a completion has checked -/

section Rules

variable (h : e.tree.Linked)

include h

/-- If what falls through a node lies between zero and its entry whenever it comes out, then the
completion has no other faults than that. -/
theorem fallThrough_eq_error (hn : e.tree.nodes[i]? = some n) (hk : n.kind ≠ .handler)
    (hu : e.answer (.entry i) = .ok u)
    (hb : ∀ v, (e.fallThrough i n).run e.answer = .ok v → 0 ≤ v ∧ v ≤ u)
    (hf : e.answer (.completion i) = .error fault) :
    (e.fallThrough i n).run e.answer = .error fault := by
  cases hv : (e.fallThrough i n).run e.answer with
  | ok v =>
    obtain ⟨h0, hle⟩ := hb v hv
    have hbound : e.answer (completionBound i n) = .ok u := by
      rw [completionBound, if_neg hk]
      exact hu
    have hok : (e.completionRule i).run e.answer = .ok v :=
      run_completionRule.mpr ⟨n, u, hn, hv, hbound, h0, hle⟩
    rw [answer_eq h] at hf
    cases hok.symm.trans hf
  | error cause =>
    rw [answer_eq h] at hf
    have hrun : (e.completionRule i).run e.answer = .error cause := by
      rw [completionRule, place, hn]
      exact run_bind_eq_error.mpr (.inr ⟨n, rfl, run_bind_eq_error.mpr (.inl hv)⟩)
    rw [← hrun]
    exact hf

end Rules

/-! ### Completions of constructs that decide between two ways -/

section Constructs

variable (h : e.tree.Linked) (hn : e.tree.nodes[i]? = some n)
  (hb : ∀ c ∈ n.construct.present, e.Bounded c) (hf : e.answer (.completion i) = .error fault)

include h hn hb hf

/-- If the false branch of a conditional was executed, the completion of the conditional fails only
with those of its branches. -/
theorem conditional_exit {style : Style} {c x y : NodeId} {failed : Int}
    (hc : n.construct = .conditional style (some c) (some x) (some y))
    (hy : e.answer (.execution y) = .ok failed) :
    ∃ b ∈ [x, y], e.answer (.completion b) = .error fault := by
  have hcm : c ∈ n.construct.present := by simp [hc, Construct.present]
  have hxm : x ∈ n.construct.present := by simp [hc, Construct.present]
  have hym : y ∈ n.construct.present := by simp [hc, Construct.present]
  obtain ⟨-, hcy, hxy⟩ := conditional_nodup hc (present_nodup h hn)
  obtain ⟨uy, huy, -⟩ := (bound_of_execution h hy).2 (hb y hym)
  obtain ⟨d, hd⟩ : ∃ d, e.answer (.completion c) = .ok d := by
    have hey := run_childEntry_of_entry h hn hym huy
    simp only [childEntry, hc, Option.some.injEq, if_neg hcy.symm, if_neg hxy.symm,
      run_bind_eq_ok, run_lift, Tree.required_some, run_count] at hey
    obtain ⟨_, hc', d, hd, -⟩ := hey
    cases hc'
    exact ⟨d, hd⟩
  obtain ⟨u, -, hec⟩ := flows_of_slot h hn hcm (hb c hcm) hd
  have hu : e.answer (.entry i) = .ok u := by simpa [childEntry, hc] using hec
  have hk : n.kind ≠ .handler := by simp [Node.kind, hc, Construct.kind]
  have hfall := fallThrough_eq_error h hn hk hu (fun v hv => ?_) hf
  · simp only [fallThrough, hc, run_bind_eq_error, run_lift, Tree.required_some, run_count, run_pure,
      Except.ok.injEq, exists_eq_left', reduceCtorEq, false_or, and_false, exists_false,
      or_false] at hfall
    rcases hfall with hfall | ⟨-, -, hfall⟩
    · exact ⟨x, by simp, hfall⟩
    · exact ⟨y, by simp, hfall⟩
  · obtain ⟨c', x', y', d, p, q, hcs, hxs, hys, hfc, hfx, hfy, rfl⟩ :=
      conditional_flows h hn hu hv hb hc
    cases hcs
    cases hxs
    cases hys
    obtain ⟨-, hd0, hdu⟩ := hfc.le h (hb c hcm)
    obtain ⟨ht0, hp0, hpt⟩ := hfx.le h (hb x hxm)
    obtain ⟨-, hq0, hqd⟩ := hfy.le h (hb y hym)
    have hkept := keeps_answer hfc.completion
    rw [hkept.sub_eq (e.keeps_reading n _) hd0 ht0] at hqd
    rw [hkept.add_eq (by omega) (by omega)]
    omega

/-- If the right operand of a short-circuit is executed as often as it is entered, and the branch
past it came out, then the completion fails only with that of the right operand. -/
theorem shortCircuit_exit {op : Connective} {l r : NodeId} {m : Node} {skipped : Int}
    (hc : n.construct = .shortCircuit op (some l) (some r)) (hr : e.tree.nodes[r]? = some m)
    (hm : m.kind ≠ .rescue) (hs : e.answer (.implicitBranch i) = .ok skipped) :
    e.answer (.completion r) = .error fault := by
  have hlm : l ∈ n.construct.present := by simp [hc, Construct.present]
  have hrm : r ∈ n.construct.present := by simp [hc, Construct.present]
  have hlr := shortCircuit_nodup hc (present_nodup h hn)
  have harrival : e.arrival r m = Flow.count (.entry r) :=
    arrival_of_direct (.of_kind hm (hb r hrm m hr))
  obtain ⟨d, k, hd, hk, hdiff, h0⟩ : ∃ d k, e.answer (.completion l) = .ok d ∧
      e.answer (.execution r) = .ok k ∧ e.width.sub d k = skipped ∧ 0 ≤ skipped := by
    have himplicit := hs
    rw [answer_eq h] at himplicit
    simp only [rule, implicitBranchRule, run_bind_eq_ok, run_lift, Tree.node_eq_ok, hn,
      Option.some.injEq, exists_eq_left', hc, Tree.required_some, Except.ok.injEq, run_count,
      run_nonNegative] at himplicit
    obtain ⟨d, hd, k, hk, hdiff, h0⟩ := himplicit
    exact ⟨d, k, hd, hk, hdiff, hdiff ▸ h0⟩
  obtain ⟨u, -, hel⟩ := flows_of_slot h hn hlm (hb l hlm) hd
  have hu : e.answer (.entry i) = .ok u := by simpa [childEntry, hc, hlr] using hel
  have hnk : n.kind ≠ .handler := by simp [Node.kind, hc, Construct.kind]
  have hfall := fallThrough_eq_error h hn hnk hu (fun v hv => ?_) hf
  · simpa [fallThrough, hc, run_bind_eq_error, hs, Except.map] using hfall
  · obtain ⟨l', r', d', y, k', hls, hrs, hfl, hfr, hk', rfl⟩ :=
      shortCircuit_flows h hn hu hv hb hc
    cases hls
    cases hrs
    cases hd.symm.trans hfl.completion
    cases hk.symm.trans hk'
    cases (entry_of_execution h hr harrival hk).symm.trans hfr.entry
    obtain ⟨-, hd0, hdu⟩ := hfl.le h (hb l hlm)
    obtain ⟨ht0, hy0, hyt⟩ := hfr.le h (hb r hrm)
    have hkept := keeps_answer hd
    rw [hkept.sub_eq (e.keeps_reading n _) hd0 ht0] at hdiff ⊢
    rw [hkept.add_eq (by omega) (by omega)]
    omega

/-- If neither the call nor the skipping of a safe navigation has a tracker, and the branch past the
call came out, then the completion fails only with that of the last argument. -/
theorem safeNavigation_exit {r : NodeId} {skipped : Int}
    (hc : n.construct = .safeNavigation (some r) ids) (hk : n.tracker? .completion = none)
    (ht : n.tracker? .nilReceiver = none) (hs : e.answer (.implicitBranch i) = .ok skipped) :
    ∃ c ∈ ids.getLast?.toList, e.answer (.completion c) = .error fault := by
  have hrm : r ∈ n.construct.present := by simp [hc, Construct.present]
  obtain ⟨d, hd, hdiff, h0⟩ : ∃ d, e.answer (.completion r) = .ok d ∧
      e.width.sub d (e.reading n .nonNil) = skipped ∧ 0 ≤ skipped := by
    have himplicit := hs
    rw [answer_eq h] at himplicit
    simp only [rule, implicitBranchRule, run_bind_eq_ok, run_lift, Tree.node_eq_ok, hn,
      Option.some.injEq, exists_eq_left', hc, ht, Option.isSome_none, Bool.false_eq_true, if_false,
      Tree.required_some, Except.ok.injEq, run_count, run_nonNegative] at himplicit
    obtain ⟨d, hd, hdiff, h0⟩ := himplicit
    exact ⟨d, hd, hdiff, hdiff ▸ h0⟩
  obtain ⟨u, -, her⟩ := flows_of_slot h hn hrm (hb r hrm) hd
  have hu : e.answer (.entry i) = .ok u := by simpa [childEntry, hc] using her
  have hnk : n.kind ≠ .handler := by simp [Node.kind, hc, Construct.kind]
  have hfall := fallThrough_eq_error h hn hnk hu (fun v hv => ?_) hf
  · have hlast : (lastCompletion ids (e.reading n .nonNil)).run e.answer = .error fault := by
      simpa [fallThrough, hc, hk, run_bind_eq_error, hs, Except.map] using hfall
    unfold lastCompletion at hlast
    split at hlast
    next c hlc =>
      rw [run_count] at hlast
      exact ⟨c, by simp [hlc], hlast⟩
    next => cases hlast
  · obtain ⟨r', d', x, hrs, hfr, hseq, hfin, rfl⟩ := safeNavigation_flows h hn hu hv hb hc ht
    cases hrs
    cases hd.symm.trans hfr.completion
    have hbids : ∀ c ∈ ids, e.Bounded c := fun c hcm => hb c (by simp [hc, hcm, Construct.present])
    obtain ⟨-, hd0, hdu⟩ := hfr.le h (hb r hrm)
    have hkept := keeps_answer hd
    rcases (hseq.chain h hbids (hfin.of_untracked hk)).le h hbids with ⟨rfl, -⟩ | ⟨hx0, hxt⟩
    · rw [hkept.add_sub_cancel]
      exact ⟨hd0, hdu⟩
    · rw [hkept.sub_eq (e.keeps_reading n _) hd0 (hx0.trans hxt)] at hdiff ⊢
      rw [hkept.add_eq (by omega) (by omega)]
      omega

end Constructs

end Flow.Evidence

/-! ### Records -/

namespace Report

/-- What a report has checked of the construct of a record: the branch without a node of a
short-circuit or a safe navigation comes out, as it is shown; the execution of every other branch
comes out, as it is shown, within its bounds; and a construct that decides between two ways has a
completion, unless there is none for one of its exits. -/
structure Record.Checked (r : Record) (e : Evidence) (n : Node) : Prop where
  implicit : n.kind = .shortCircuit ∨ n.kind = .safeNavigation →
    ∃ v ∈ r.counts, ∀ earlier, e.lookup earlier (.implicitBranch r.node) = .ok v
  execution : ∀ c ∈ n.construct.outlets e.tree, ∃ v ∈ r.counts, 0 ≤ v ∧
    (∀ earlier, e.lookup earlier (.execution c) = .ok v) ∧
    (e.Bounded c → ∃ u, v ≤ u ∧ ∀ earlier, e.lookup earlier (.entry c) = .ok u)
  completion : e.tree.Decides n → ∀ earlier fault,
    e.lookup earlier (.completion r.node) = .error fault →
    ∃ c ∈ n.construct.exits, e.lookup earlier (.completion c) = .error fault

section Checks

variable {e : Evidence} {r : Record} {n : Node} {tag : Tag} {outs : List (Tag × Option Tally)}

/-- The counts of a record that are derived come out. -/
theorem exists_of_counts (houts : List.Forall₂ (Counts e r.node) outs r.counts)
    {out : Tag × Option Tally} {q : Query} (hout : out ∈ outs) (hq : out.2 = some (.derived q)) :
    ∃ v ∈ r.counts, e.answer q = .ok v := by
  obtain ⟨v, hv, tally, htally, hcount⟩ := exists_right_of_forall₂ houts hout
  cases hq.symm.trans htally
  rw [Tally.count, run_count] at hcount
  exact ⟨v, hv, hcount⟩

variable (hscheme : n.construct.scheme e.tree r.node = some (tag, outs))
  (houts : List.Forall₂ (Counts e r.node) outs r.counts)

include hscheme houts

theorem implicit_of_counts (hk : n.kind = .shortCircuit ∨ n.kind = .safeNavigation) :
    ∃ v ∈ r.counts, e.answer (.implicitBranch r.node) = .ok v := by
  obtain ⟨out, hout, hq⟩ := Construct.mem_scheme_of_implicit hscheme hk
  exact exists_of_counts houts hout hq

theorem execution_of_counts {c : NodeId} (hc : c ∈ n.construct.outlets e.tree) :
    ∃ v ∈ r.counts, e.answer (.execution c) = .ok v := by
  obtain ⟨out, hout, hq⟩ := Construct.mem_scheme_of_outlet hscheme hc
  exact exists_of_counts houts hout hq

variable (hl : e.tree.Linked) (hn : e.tree.nodes[r.node]? = some n)
  (hneeds : ∀ name, (name, none) ∉ n.construct.needs)

include hl hn hneeds

/-- A construct that decides between two ways completes if its exits do. -/
theorem exit_of_completion (hd : e.tree.Decides n) {fault : Fault}
    (hf : e.answer (.completion r.node) = .error fault) :
    ∃ c ∈ n.construct.exits, e.answer (.completion c) = .error fault := by
  obtain ⟨hb, hd⟩ := hd
  have hslot : ∀ name slot, (name, slot) ∈ n.construct.needs → ∃ c, slot = some c :=
    fun name slot hs => Option.ne_none_iff_exists'.mp fun hnone => hneeds name (hnone ▸ hs)
  cases hc : n.construct with
  | conditional style condition whenTrue whenFalse =>
    obtain ⟨c, rfl⟩ := hslot "condition" condition (by simp [hc, Construct.needs])
    obtain ⟨x, rfl⟩ := hslot "true branch" whenTrue (by simp [hc, Construct.needs])
    obtain ⟨y, rfl⟩ := hslot "false branch" whenFalse (by simp [hc, Construct.needs])
    obtain ⟨v, -, hv⟩ := execution_of_counts hscheme houts (c := y) (by simp [hc, Construct.outlets])
    exact conditional_exit hl hn hb hf hc hv
  | shortCircuit op left right =>
    obtain ⟨x, rfl⟩ := hslot "left operand" left (by simp [hc, Construct.needs])
    obtain ⟨y, rfl⟩ := hslot "right operand" right (by simp [hc, Construct.needs])
    obtain ⟨v, -, hv⟩ := implicit_of_counts hscheme houts (.inl (by rw [Node.kind, hc]; rfl))
    obtain ⟨m, hm, -⟩ := hl.child_of_present hn (c := y) (by simp [hc, Construct.present])
    rw [hc] at hd
    exact ⟨y, by simp [Construct.exits], shortCircuit_exit hl hn hb hf hc hm (hd y m rfl hm) hv⟩
  | safeNavigation receiver arguments =>
    obtain ⟨x, rfl⟩ := hslot "receiver" receiver (by simp [hc, Construct.needs])
    obtain ⟨v, -, hv⟩ := implicit_of_counts hscheme houts (.inr (by rw [Node.kind, hc]; rfl))
    rw [hc] at hd
    exact safeNavigation_exit hl hn hb hf hc hd.1 hd.2 hv
  | _ =>
    rw [hc] at hd
    exact hd.elim

theorem checked_of_counts : r.Checked e n := by
  constructor
  case implicit =>
    intro hk
    obtain ⟨v, hv, himplicit⟩ := implicit_of_counts hscheme houts hk
    exact ⟨v, hv, fun earlier => (lookup_eq hl earlier _).trans himplicit⟩
  case execution =>
    intro c hc
    obtain ⟨v, hv, hexec⟩ := execution_of_counts hscheme houts hc
    obtain ⟨h0, hbound⟩ := bound_of_execution hl hexec
    refine ⟨v, hv, h0, fun earlier => (lookup_eq hl earlier _).trans hexec, fun hb => ?_⟩
    obtain ⟨u, hu, hle⟩ := hbound hb
    exact ⟨u, hle, fun earlier => (lookup_eq hl earlier _).trans hu⟩
  case completion =>
    intro hd earlier fault hf
    rw [lookup_eq hl] at hf
    obtain ⟨c, hc, hf⟩ := exit_of_completion hscheme houts hl hn hneeds hd hf
    exact ⟨c, hc, (lookup_eq hl earlier _).trans hf⟩

end Checks

/-- On a loaded tree with a report, whatever was asked before, each record has been checked. -/
theorem checked_of_build {t : Tree} (ht : t.Loaded) (counters : Counters) (width : Width)
    (source : Source) {m : Memory} (hm : m.Sound ⟨t, counters, width⟩) {rs : List Record}
    (h : (build ⟨t, counters, width⟩ source m).result = .ok rs) :
    ∀ r ∈ rs, ∃ n, t.nodes[r.node]? = some n ∧ r.Checked ⟨t, counters, width⟩ n := by
  intro r hr
  have hl : Tree.Linked (Evidence.tree ⟨t, counters, width⟩) := ht.linked
  obtain ⟨n, tag, outs, hn, hscheme, houts⟩ := counts_of_record hl hm h hr
  refine ⟨n, hn, checked_of_counts hscheme houts hl hn fun name hneed => ?_⟩
  have hb : n.kind.isBranching := by
    rw [Node.kind, ← n.construct.isSome_scheme t r.node, hscheme]
    rfl
  exact not_gapped_of_build ht h hn (.inl ⟨hb, name, hneed⟩)

/-- In the report on `Tree.choosing` the branch past the right operand of the conjunction and the
executions of the arms of the `case` have been checked. -/
theorem checked_of_build_choosing :
    let e := Tree.choosingEvidence
    (build e ⟨[]⟩ e.memory).result = .ok choosingReport ∧
      (∀ r ∈ choosingReport, ∃ n, e.tree.nodes[r.node]? = some n ∧ r.Checked e n) ∧
      (∃ v ∈ [0, 1], e.lookup [.completion 0] (.implicitBranch 2) = .ok v) ∧
      ∃ v ∈ [1, 1, 0], 0 ≤ v ∧ e.lookup [] (.execution 12) = .ok v := by
  intro e
  have hr : (build e ⟨[]⟩ e.memory).result = .ok choosingReport := by decide +kernel
  have hchecked := checked_of_build Tree.choosing_loaded _ _ _ (memory_sound e) hr
  refine ⟨hr, hchecked, ?_, ?_⟩
  · obtain ⟨n, hn, h⟩ := hchecked choosingReport[1] (List.getElem_mem _)
    cases hn
    obtain ⟨v, hv, himplicit⟩ := h.implicit (.inl rfl)
    exact ⟨v, hv, himplicit _⟩
  · obtain ⟨n, hn, h⟩ := hchecked choosingReport[2] (List.getElem_mem _)
    cases hn
    obtain ⟨v, hv, h0, hexec, -⟩ := h.execution 12 (by decide +kernel)
    exact ⟨v, hv, h0, hexec _⟩

end Report

/-! ### A tree with counts that no report looks at -/

/-- A `case` with a call, a loop, a conditional, a safe navigation and a conjunction for the bodies of
its arms. -/
def Dump.straying : Dump :=
  let span (l c l' c' : Int) : Option Span := some ⟨⟨l, c⟩, ⟨l', c'⟩⟩
  .node "case" 1 (span 1 0 18 3) [("entry", "1"), ("else_entered", "2")]
    [.node "send" 1 (span 1 5 1 9) [] [],
      .node "when" 2 (span 2 0 3 6) [("entered_body", "3")]
        [.node "int" 2 (span 2 5 2 6) [] [], .node "send" 3 (span 3 2 3 6) [] []],
      .node "when" 4 (span 4 0 7 5) [("entered_body", "4")]
        [.node "int" 4 (span 4 5 4 6) [] [],
          .node "while" 5 (span 5 2 7 5) [("body", "5")]
            [.node "lvar" 5 (span 5 8 5 9) [("completion", "6")] [],
              .node "send" 6 (span 6 4 6 8) [] []]],
      .node "when" 8 (span 8 0 13 5) [("entered_body", "7")]
        [.node "int" 8 (span 8 5 8 6) [] [],
          .node "if" 9 (span 9 2 13 5) [("truthy", "8")]
            [.node "lvar" 9 (span 9 5 9 6) [] [],
              .node "send" 10 (span 10 4 10 8) [("completion", "9")] [],
              .node "send" 12 (span 12 4 12 8) [] []]],
      .node "when" 14 (span 14 0 15 7) [("entered_body", "10")]
        [.node "int" 14 (span 14 5 14 6) [] [],
          .node "csend" 15 (span 15 2 15 7) [("non_nil", "11"), ("completion", "12")]
            [.node "lvar" 15 (span 15 2 15 3) [] []]],
      .node "when" 16 (span 16 0 17 8) [("entered_body", "13")]
        [.node "int" 16 (span 16 5 16 6) [] [],
          .node "and" 17 (span 17 2 17 8) [("conditional", "14")]
            [.node "lvar" 17 (span 17 2 17 3) [] [],
              .node "send" 17 (span 17 7 17 8) [("completion", "15")] []]],
      .node "empty" 1 none [] []]

def Tree.straying : Tree :=
  let span (l c l' c' : Int) : Option Span := some ⟨⟨l, c⟩, ⟨l', c'⟩⟩
  let plain (type : String) (span : Option Span) (parent index : Nat) : Node :=
    ⟨.expression type [], span, some parent, index, [], [], []⟩
  ⟨#[⟨.dispatch (some 1) [2, 5, 10, 16, 20] (some 25), span 1 0 18 3, none, 0,
      [1, 2, 5, 10, 16, 20, 25], [(.elseEntered, 2), (.entry, 1)], []⟩,
    plain "send" (span 1 5 1 9) 0 0,
    ⟨.arm [3] (some 4), span 2 0 3 6, some 0, 1, [3, 4], [(.enteredBody, 3)], []⟩,
    plain "int" (span 2 5 2 6) 2 0,
    plain "send" (span 3 2 3 6) 2 1,
    ⟨.arm [6] (some 7), span 4 0 7 5, some 0, 2, [6, 7], [(.enteredBody, 4)], []⟩,
    plain "int" (span 4 5 4 6) 5 0,
    ⟨.loop .whileTrue .before (some 8) (some 9), span 5 2 7 5, some 5, 1, [8, 9], [(.body, 5)], []⟩,
    ⟨.expression "lvar" [], span 5 8 5 9, some 7, 0, [], [(.completion, 6)], []⟩,
    plain "send" (span 6 4 6 8) 7 1,
    ⟨.arm [11] (some 12), span 8 0 13 5, some 0, 3, [11, 12], [(.enteredBody, 7)], []⟩,
    plain "int" (span 8 5 8 6) 10 0,
    ⟨.conditional .plain (some 13) (some 14) (some 15), span 9 2 13 5, some 10, 1, [13, 14, 15],
      [(.truthy, 8)], []⟩,
    plain "lvar" (span 9 5 9 6) 12 0,
    ⟨.expression "send" [], span 10 4 10 8, some 12, 1, [], [(.completion, 9)], []⟩,
    plain "send" (span 12 4 12 8) 12 2,
    ⟨.arm [17] (some 18), span 14 0 15 7, some 0, 4, [17, 18], [(.enteredBody, 10)], []⟩,
    plain "int" (span 14 5 14 6) 16 0,
    ⟨.safeNavigation (some 19) [], span 15 2 15 7, some 16, 1, [19],
      [(.completion, 12), (.nonNil, 11)], []⟩,
    plain "lvar" (span 15 2 15 3) 18 0,
    ⟨.arm [21] (some 22), span 16 0 17 8, some 0, 5, [21, 22], [(.enteredBody, 13)], []⟩,
    plain "int" (span 16 5 16 6) 20 0,
    ⟨.shortCircuit .conjunction (some 23) (some 24), span 17 2 17 8, some 20, 1, [23, 24],
      [(.conditional, 14)], []⟩,
    plain "lvar" (span 17 2 17 3) 22 0,
    ⟨.expression "send" [], span 17 7 17 8, some 22, 1, [], [(.completion, 15)], []⟩,
    ⟨.emptyBody, none, some 0, 6, [], [], []⟩]⟩

theorem Tree.straying_loaded : Tree.straying.Loaded := ⟨"straying", .straying, by decide +kernel⟩

namespace Report

/-- A report that shows nothing of the contradictions among its counters: the loop went on more often
than it was tested, and the first arm of the `case`, a branch of the conditional, an operand of the
conjunction and the safe navigation completed more often than they were entered. -/
theorem build_straying :
    let e : Evidence := ⟨.straying, .ofList [(1, 1), (3, 2), (4, 1), (5, 5), (7, 1), (8, 1), (9, 3),
      (10, 1), (11, 1), (12, 4), (13, 1), (14, 1), (15, 2)], .word⟩
    let label (kind : Kind) (id : NodeId) (l c l' c' : Int) : Label :=
      ⟨kind, id, some ⟨⟨l, c⟩, ⟨l', c'⟩⟩⟩
    let exit : Fault := .negative .implicitBranch (label .loop 7 5 2 7 5) (-5)
    let contradictions : List (Query × Fault) :=
      [(.completion 0, .excess .completed (label .arm 2 2 0 3 6) 2 1),
        (.completion 7, exit), (.implicitBranch 7, exit),
        (.completion 12, .excess .completed (label .expression 14 10 4 10 8) 3 1),
        (.completion 18, .excess .completed (label .safeNavigation 18 15 2 15 7) 4 1),
        (.completion 22, .excess .completed (label .expression 24 17 7 17 8) 2 1)]
    e.tree.Loaded ∧
      (∃ rs, (build e ⟨[]⟩ e.memory).result = .ok rs ∧ rs.map (·.node) = [0, 7, 12, 18, 22]) ∧
      ∀ c ∈ contradictions, e.lookup [] c.1 = .error c.2 ∧ c.2.category = .inconsistent := by
  intro e label exit contradictions
  have hnodes : (build e ⟨[]⟩ e.memory).result.map (·.map (·.node)) = .ok [0, 7, 12, 18, 22] := by
    decide +kernel
  obtain ⟨rs, hrs, hmap⟩ := map_eq_ok.mp hnodes
  exact ⟨Tree.straying_loaded, ⟨rs, hrs, hmap⟩, by decide +kernel⟩

end Report

end BranchTally
