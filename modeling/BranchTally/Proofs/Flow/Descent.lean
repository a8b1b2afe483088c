import BranchTally.Proofs.Flow.Skipping
import BranchTally.Proofs.Tree.Order
import Mathlib.Tactic.IntervalCases

/-! Control that goes down a tree does not multiply. Where nothing is repeated and no clause or
handler is tried, no slot of a node is entered more often than the node. For a branch that a tracker
counts this follows from the other way that control may go, since what goes there is never negative;
a node in a row is entered as often as the one before it completed. So what is below a node that was
never entered was not entered either, nor executed or completed. -/

namespace BranchTally

open BranchTally.Flow

/-- All nodes are of kinds in which control enters each slot at most once, and a safe navigation
finds out by its receiver how often it skips its call. -/
structure Tree.Forward (t : Tree) : Prop where
  kind : ∀ {i : NodeId} {n : Node}, t.nodes[i]? = some n →
    n.kind ∈ [Kind.expression, .sequence, .emptyBody, .conditional, .shortCircuit, .safeNavigation,
      .ensure]
  receiver : ∀ {i : NodeId} {n : Node}, t.nodes[i]? = some n → n.kind = .safeNavigation →
    n.tracker? .nilReceiver = none

namespace Flow.Evidence

open Flow.Derivation BranchTally.Tree

variable {e : Evidence} {i c : NodeId} {n : Node} {u v w : Int} {ids : List NodeId}

/-- All counts of all nodes come out, and those of the branches that have no node. -/
structure Settled (e : Evidence) : Prop where
  entry : ∀ i < e.tree.size, ∃ v, e.Gives (.entry i) v
  execution : ∀ i < e.tree.size, ∃ v, e.Gives (.execution i) v
  completion : ∀ i < e.tree.size, ∃ v, e.Gives (.completion i) v
  implicitBranch : ∀ {i : NodeId} {n : Node}, e.tree.nodes[i]? = some n →
    n.kind = .shortCircuit ∨ n.kind = .safeNavigation → ∃ v, e.Gives (.implicitBranch i) v

theorem bounded_of_forward (hf : e.tree.Forward) (i : NodeId) : e.Bounded i := by
  intro n hn hk
  have hkind := hf.kind hn
  simp [hk] at hkind

section Slots

variable (h : e.tree.Linked) (hf : e.tree.Forward)

include h hf

/-- No node of a row is entered more often than the first. The induction goes along the row, as a
node is entered as often as the one before it completed. -/
theorem Consecutive.entry_le (hs : e.Consecutive u ids) (hc : c ∈ ids)
    (hw : e.answer (.entry c) = .ok w) : w ≤ u := by
  obtain ⟨k, hk⟩ := List.mem_iff_getElem?.mp hc
  induction k generalizing c w with
  | zero => exact Int.le_of_eq (hs.first hk hw)
  | succ k ih =>
    have hlt := (List.getElem?_eq_some_iff.mp hk).1
    have hb : ids[k]? = some ids[k] := List.getElem?_eq_getElem (by omega)
    have hcompletion := hs.next hb hk hw
    obtain ⟨-, x, -, hflow, -, -, hle⟩ :=
      flows_of_completion h (bounded_of_forward hf _) hcompletion
    have := ih (List.mem_of_getElem? hb) hflow.entry hb
    omega

/-- Whatever reaches the start of a node has entered it. -/
theorem entry_of_forward (hx : e.answer (.execution c) = .ok w) :
    e.answer (.entry c) = .ok w := by
  have hrun := hx
  rw [answer_eq h] at hrun
  obtain ⟨m, hm, -⟩ := run_executionRule.mp hrun
  have hkind := hf.kind hm
  refine entry_of_execution h hm (arrival_of_direct (.of_kind ?_ ?_)) hx
  all_goals
    intro hk
    rw [← Node.kind] at hk
    simp [hk] at hkind

variable (hh : ∀ tracker, 0 ≤ e.counters.hits e.width tracker) (hn : e.tree.nodes[i]? = some n)
  (hu : e.answer (.entry i) = .ok u) (hw : e.answer (.entry c) = .ok w)

include hh hn hu hw

theorem conditional_entry_le (hv : (e.fallThrough i n).run e.answer = .ok v) {style : Style}
    {condition whenTrue whenFalse : Slot}
    (hc : n.construct = .conditional style condition whenTrue whenFalse)
    (hcm : c ∈ n.construct.present) : w ≤ u := by
  obtain ⟨x, a, b, d, p, q, rfl, rfl, rfl, hfx, hfa, hfb, -⟩ :=
    conditional_flows h hn hu hv (fun _ _ => bounded_of_forward hf _) hc
  -- the false branch is entered by those whom the true one left over
  have hsub := (keeps_answer hfx.completion).sub_eq (e.keeps_reading n .truthy)
    (completion_nonneg h hfx.completion) (reading_nonneg hh n .truthy)
  have hrest := entry_nonneg h hfb.entry
  have htrue := reading_nonneg hh n .truthy
  obtain ⟨-, -, hle⟩ := hfx.le h (bounded_of_forward hf x)
  have hcases : c = x ∨ c = a ∨ c = b := by simpa [hc, Construct.present] using hcm
  rcases hcases with rfl | rfl | rfl
  · cases hw.symm.trans hfx.entry
    exact Int.le_refl u
  · cases hw.symm.trans hfa.entry
    omega
  · cases hw.symm.trans hfb.entry
    omega

omit hh in
theorem shortCircuit_entry_le (hv : (e.fallThrough i n).run e.answer = .ok v) {op : Connective}
    {left right : Slot} (hc : n.construct = .shortCircuit op left right)
    (hcm : c ∈ n.construct.present) {z : Int} (hz : e.answer (.implicitBranch i) = .ok z) :
    w ≤ u := by
  obtain ⟨l, r, d, y, x, rfl, rfl, hfl, hfr, hx, -⟩ :=
    shortCircuit_flows h hn hu hv (fun _ _ => bounded_of_forward hf _) hc
  obtain ⟨hxd, -⟩ := (implicitBranch_of_shortCircuit h hn hc hfl.completion hx).mp hz
  obtain ⟨-, -, hle⟩ := hfl.le h (bounded_of_forward hf l)
  have hcases : c = l ∨ c = r := by simpa [hc, Construct.present] using hcm
  rcases hcases with rfl | rfl
  · cases hw.symm.trans hfl.entry
    exact Int.le_refl u
  · cases hw.symm.trans (entry_of_forward h hf hx)
    omega

theorem safeNavigation_entry_le (hv : (e.fallThrough i n).run e.answer = .ok v) {receiver : Slot}
    (hc : n.construct = .safeNavigation receiver ids) (hcm : c ∈ n.construct.present) {z : Int}
    (hz : e.answer (.implicitBranch i) = .ok z) : w ≤ u := by
  have ht := hf.receiver hn (by simp [Node.kind, hc, Construct.kind])
  obtain ⟨r, d, x, rfl, hfr, hrow, -⟩ :=
    safeNavigation_flows h hn hu hv (fun _ _ => bounded_of_forward hf _) hc ht
  rw [answer_eq h] at hz
  simp only [rule, implicitBranchRule, run_bind_eq_ok, run_lift, node_eq_ok, hn,
    Option.some.injEq, exists_eq_left', hc, ht, Option.isSome_none, Bool.false_eq_true, if_false,
    required_some, Except.ok.injEq, run_count, hfr.completion, run_nonNegative] at hz
  have hsub := (keeps_answer hfr.completion).sub_eq (e.keeps_reading n .nonNil)
    (completion_nonneg h hfr.completion) (reading_nonneg hh n .nonNil)
  obtain ⟨-, -, hle⟩ := hfr.le h (bounded_of_forward hf r)
  have hcases : c = r ∨ c ∈ ids := by simpa [hc, Construct.present] using hcm
  rcases hcases with rfl | hmem
  · cases hw.symm.trans hfr.entry
    exact Int.le_refl u
  · have := hrow.entry_le h hf hmem hw
    omega

omit hf hh in
theorem ensure_entry_le {body ensured : Slot} (hc : n.construct = .ensure body ensured)
    (hcm : c ∈ n.construct.present) : w ≤ u := by
  have hrun := run_childEntry_of_entry h hn hcm hw
  suffices w = u from Int.le_of_eq this
  cases body with
  | none => simpa [childEntry, hc, hu, eq_comm] using hrun
  | some b =>
    simp only [childEntry, hc] at hrun
    split at hrun
    · -- what is ensured is entered as often as the body
      have hb := run_childEntry_of_entry h hn (c := b) (by simp [hc, Construct.present])
        (run_count _ _ ▸ hrun)
      simpa [childEntry, hc, ensure_nodup hc (present_nodup h hn), hu, eq_comm] using hb
    · simpa [hu, eq_comm] using hrun

/-- Where all counts come out, no slot is entered more often than its owner. -/
theorem entry_le_of_slot (hs : e.Settled) (hcm : c ∈ n.construct.present) : w ≤ u := by
  obtain ⟨v, hv⟩ := hs.completion i (size_of_node hn)
  obtain ⟨n', u', hn', hflow, hfall, -⟩ :=
    flows_of_completion h (bounded_of_forward hf i) ((gives_iff h).mp hv)
  cases hn.symm.trans hn'
  have hkind := hf.kind hn
  cases hc : n.construct with
  | expression type operands =>
    have hrow : e.Consecutive u operands := consecutive_of_inSequence h hn hu
      (by simp [hc, Construct.present]) fun c => by simp [childEntry, hc]
    exact hrow.entry_le h hf (by simpa [hc, Construct.present] using hcm) hw
  | sequence explicit statements =>
    have hrow : e.Consecutive u statements := consecutive_of_inSequence h hn hu
      (by simp [hc, Construct.present]) fun c => by simp [childEntry, hc]
    exact hrow.entry_le h hf (by simpa [hc, Construct.present] using hcm) hw
  | emptyBody => simp [hc, Construct.present] at hcm
  | conditional style condition whenTrue whenFalse =>
    exact conditional_entry_le h hf hh hn hu hw hfall hc hcm
  | shortCircuit op left right =>
    obtain ⟨z, hz⟩ := hs.implicitBranch hn (.inl (by simp [Node.kind, hc, Construct.kind]))
    exact shortCircuit_entry_le h hf hn hu hw hfall hc hcm ((gives_iff h).mp hz)
  | safeNavigation receiver arguments =>
    obtain ⟨z, hz⟩ := hs.implicitBranch hn (.inr (by simp [Node.kind, hc, Construct.kind]))
    exact safeNavigation_entry_le h hf hh hn hu hw hfall hc hcm ((gives_iff h).mp hz)
  | ensure body ensured => exact ensure_entry_le h hn hu hw hc hcm
  | _ => simp [Node.kind, hc, Construct.kind] at hkind

end Slots

/-- No node is entered more often than one above it. The induction goes from the later nodes to the
earlier ones, as the children of a node come after it. -/
theorem entry_le_of_subtree (h : e.tree.Linked) (hf : e.tree.Forward)
    (hh : ∀ tracker, 0 ≤ e.counters.hits e.width tracker) (hs : e.Settled)
    (hi : i < e.tree.size) : ∀ u, e.answer (.entry i) = .ok u →
      ∀ j ∈ e.tree.subtree e.tree.size i, ∃ v, e.answer (.entry j) = .ok v ∧ v ≤ u := by
  apply later_induction (P := fun i => ∀ u, e.answer (.entry i) = .ok u →
    ∀ j ∈ e.tree.subtree e.tree.size i, ∃ v, e.answer (.entry j) = .ok v ∧ v ≤ u) _ hi
  intro i hi ih u hu j hj
  rw [h.subtree_children hi] at hj
  rcases List.mem_cons.mp hj with rfl | hj
  · exact ⟨u, hu, Int.le_refl u⟩
  · obtain ⟨c, hc, hj⟩ := List.mem_flatMap.mp hj
    obtain ⟨hlt, hsize⟩ := h.lt_of_childrenOf hc
    obtain ⟨w, hw⟩ := hs.entry c hsize
    have hw := (gives_iff h).mp hw
    obtain ⟨v, hv, hvw⟩ := ih c hlt hsize w hw j hj
    have hn : e.tree.nodes[i]? = some e.tree.nodes[i] := Array.getElem?_eq_getElem hi
    have hcm : c ∈ e.tree.nodes[i].construct.present := by
      rwa [h.present_eq hn, ← childrenOf_eq hn]
    exact ⟨v, hv, hvw.trans (entry_le_of_slot h hf hh hn hu hw hs hcm)⟩

/-- On a loaded tree in which control only goes forward, where no tracker is negative and all counts
come out, no node is entered more often than its parent. Nothing that is below a node that was never
entered was entered, executed or completed. -/
theorem entry_le_of_parent {t : Tree} (ht : t.Loaded) (hf : t.Forward) (counters : Counters)
    (width : Width) (hh : ∀ tracker, 0 ≤ counters.hits width tracker)
    (hs : Settled ⟨t, counters, width⟩) :
    let e : Evidence := ⟨t, counters, width⟩
    (∀ (i p : NodeId) (n : Node) (u v : Int), t.nodes[i]? = some n → n.parent = some p →
      e.Gives (.entry p) u → e.Gives (.entry i) v → v ≤ u) ∧
    ∀ i, e.Gives (.entry i) 0 → ∀ j ∈ t.subtree t.size i,
      ∀ q ∈ [Query.entry j, .execution j, .completion j], ∀ later, e.lookup later q = .ok 0 := by
  intro e
  have h : e.tree.Linked := ht.linked
  refine ⟨fun i p n u v hn hp hu hv => ?_, fun i hi j hj q hq later => ?_⟩
  · obtain ⟨-, m, hm, -⟩ := h.child_of_parent hn hp
    have hcm := List.mem_of_getElem? (h.present_of_child hn hp hm)
    exact entry_le_of_slot h hf hh hm ((gives_iff h).mp hu) ((gives_iff h).mp hv) hs hcm
  · have hi := (gives_iff h).mp hi
    obtain ⟨u, hu, hle⟩ := entry_le_of_subtree h hf hh hs (node_of_entry h hi) 0 hi j hj
    have hj := node_of_entry h hu
    have hb := bounded_of_forward (e := e) hf j
    obtain rfl : u = 0 := Int.le_antisymm hle (entry_nonneg h hu)
    rw [lookup_eq h]
    simp only [List.mem_cons, List.not_mem_nil, or_false] at hq
    rcases hq with rfl | rfl | rfl
    · exact hu
    · obtain ⟨x, hx⟩ := hs.execution j hj
      have hx := (gives_iff h).mp hx
      obtain ⟨h0, hbound⟩ := bound_of_execution h hx
      obtain ⟨u, hu', hxu⟩ := hbound hb
      cases hu.symm.trans hu'
      rwa [Int.le_antisymm h0 hxu]
    · obtain ⟨x, hx⟩ := hs.completion j hj
      have hx := (gives_iff h).mp hx
      obtain ⟨-, h0, hxu⟩ := Flows.le h ⟨hu, hx⟩ hb
      rwa [Int.le_antisymm h0 hxu]

end Flow.Evidence

/-- Work that is handed on if there is some, and then given up: `if found && open then
sink&.accept(1) end; retry` in the body of an ensure. -/
def Dump.yielding : Dump :=
  .node "ensure" 1 none [("entry", "1")]
    [.node "begin" 1 none []
      [.node "if" 1 none [("truthy", "2")]
        [.node "and" 1 none [("conditional", "3")]
          [.node "lvar" 1 none [] [], .node "lvar" 1 none [] []],
          .node "csend" 2 none [("non_nil", "4"), ("completion", "5")]
            [.node "lvar" 2 none [] [], .node "int" 2 none [] []],
          .node "empty" 3 none [] []],
        .node "send" 4 none [("completion", "6")] []],
      .node "send" 5 none [] []]

def Tree.yielding : Tree :=
  let plain (type : String) (parent index : Nat) : Node :=
    ⟨.expression type [], none, some parent, index, [], [], []⟩
  ⟨#[⟨.ensure (some 1) (some 11), none, none, 0, [1, 11], [(.entry, 1)], []⟩,
    ⟨.sequence false [2, 10], none, some 0, 0, [2, 10], [], []⟩,
    ⟨.conditional .plain (some 3) (some 6) (some 9), none, some 1, 0, [3, 6, 9],
      [(.truthy, 2)], []⟩,
    ⟨.shortCircuit .conjunction (some 4) (some 5), none, some 2, 0, [4, 5],
      [(.conditional, 3)], []⟩,
    plain "lvar" 3 0,
    plain "lvar" 3 1,
    ⟨.safeNavigation (some 7) [8], none, some 2, 1, [7, 8],
      [(.completion, 5), (.nonNil, 4)], []⟩,
    plain "lvar" 6 0,
    plain "int" 6 1,
    ⟨.emptyBody, none, some 2, 2, [], [], []⟩,
    ⟨.expression "send" [], none, some 1, 1, [], [(.completion, 6)], []⟩,
    plain "send" 0 1]⟩

theorem Tree.yielding_loaded : Tree.yielding.Loaded := ⟨"yielding", .yielding, by decide +kernel⟩

theorem Tree.yielding_forward : Tree.yielding.Forward where
  kind {i n} hn := by
    have hi : i < 12 := size_of_node hn
    interval_cases i <;> cases hn <;> decide
  receiver {i n} hn hk := by
    have hi : i < 12 := size_of_node hn
    interval_cases i <;> cases hn <;> rfl

/-- Three runs, in two of which there is work but nowhere to put it; the call is never made, and
given up once. -/
theorem Flow.Evidence.entry_le_of_parent_yielding :
    let e : Evidence :=
      ⟨.yielding, .ofList [(1, 3), (2, 0), (3, 2), (4, 0), (5, 0), (6, 2)], .word⟩
    e.lookup [] (.entry 5) = .ok 2 ∧ e.lookup [] (.entry 3) = .ok 3 ∧ (2 : Int) ≤ 3 ∧
      e.lookup [] (.entry 6) = .ok 0 ∧ e.lookup [.entry 6] (.completion 8) = .ok 0 := by
  intro e
  let entry := fun i => [3, 3, 3, 3, 3, 2, 0, 0, 0, 3, 3, 3].getD i 0
  let completion := fun i => [2, 2, 3, 3, 3, 2, 0, 0, 0, 3, 2, 3].getD i 0
  have hentry : ∀ i < 12, e.lookup [] (.entry i) = .ok (entry i) := by decide +kernel
  have hexecution : ∀ i < 12, e.lookup [] (.execution i) = .ok (entry i) := by decide +kernel
  have hcompletion : ∀ i < 12, e.lookup [] (.completion i) = .ok (completion i) := by decide +kernel
  have hs : e.Settled := by
    refine ⟨fun i hi => ⟨_, [], hentry i hi⟩, fun i hi => ⟨_, [], hexecution i hi⟩,
      fun i hi => ⟨_, [], hcompletion i hi⟩, fun {i n} hn hk => ?_⟩
    have hi : i < 12 := Tree.size_of_node hn
    interval_cases i <;> cases hn <;> rcases hk with hk | hk <;> cases hk
    · exact ⟨1, [], by decide +kernel⟩
    · exact ⟨0, [], by decide +kernel⟩
  obtain ⟨hle, hzero⟩ := entry_le_of_parent Tree.yielding_loaded Tree.yielding_forward e.counters
    e.width (Counters.hits_nonneg (by decide +kernel)) hs
  have h3 := hentry 3 (by decide)
  have h5 := hentry 5 (by decide)
  have h6 := hentry 6 (by decide)
  have h8 := hzero 6 ⟨[], h6⟩ 8 (by decide +kernel) (.completion 8) (by decide) [.entry 6]
  exact ⟨h5, h3, hle 5 3 _ 3 2 rfl rfl ⟨[], h3⟩ ⟨[], h5⟩, h6, h8⟩

end BranchTally
