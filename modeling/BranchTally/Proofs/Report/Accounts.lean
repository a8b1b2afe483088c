import BranchTally.Proofs.Flow.Balance
import BranchTally.Proofs.Report.Checks
import BranchTally.Proofs.Runs.Agreement

/-! The counts of a record account for control. Where every branch is executed as often as it is
entered, the branches of a construct add up to the completion of what decides between them: the two
of a conditional, of a short-circuit or of a safe navigation exactly, the body of a loop together
with the way out. The arms of a dispatch telescope, each tried by what the arm before it did not
match, so that all arms but the last add up with the entry of the last one. -/

namespace BranchTally

open BranchTally.Flow Flow.Derivation Flow.Evidence Report

/-! ### Counts that add up -/

namespace Flow.Evidence

open BranchTally.Tree

variable {e : Evidence} {i : NodeId} {n : Node} {v x y : Int}

/-- How often control comes to the body of a loop without a test: never if the loop tests before,
and with every entry if it tests afterwards. -/
def Untested (e : Evidence) (i : NodeId) : LoopTest → Int → Prop
  | .before, u => u = 0
  | .after, u => e.Gives (.entry i) u

section Constructs

variable (h : e.tree.Linked) (hn : e.tree.nodes[i]? = some n)

include h hn

/-- The entries of the branches of a conditional add up to the completion of the condition. -/
theorem completion_of_condition (hw : e.width = .unbounded) {style : Style} {condition : Slot}
    {a b : NodeId} (hc : n.construct = .conditional style condition (some a) (some b))
    (hx : e.answer (.entry a) = .ok x) (hy : e.answer (.entry b) = .ok y) :
    ∃ c, condition = some c ∧ e.answer (.completion c) = .ok (x + y) := by
  have ha := run_childEntry_of_entry h hn (c := a) (by simp [hc, Construct.present]) hx
  have hb := run_childEntry_of_entry h hn (c := b) (by simp [hc, Construct.present]) hy
  have hd := present_nodup h hn
  have hba : b ≠ a := by
    rintro rfl
    simp [hc, Construct.present, List.nodup_append] at hd
  cases condition with
  | none => simp [childEntry, hc, hba, run_bind_eq_ok, required_eq_ok] at hb
  | some c =>
    obtain ⟨hca, hcb, -⟩ := conditional_nodup hc hd
    have hx : e.reading n .truthy = x := by simpa [childEntry, hc, hca.symm] using ha
    have hy : ∃ d, e.answer (.completion c) = .ok d ∧ d - e.reading n .truthy = y := by
      simpa [childEntry, hc, hcb.symm, hba, run_bind_eq_ok, map_eq_ok, hw] using hb
    obtain ⟨d, hd, hy⟩ := hy
    refine ⟨c, rfl, ?_⟩
    rw [hd]
    congr 1
    omega

/-- Who completed the left operand of a short-circuit either reached the start of the right one or
went past it. -/
theorem completion_of_left (hw : e.width = .unbounded) {op : Connective} {left : Slot} {r : NodeId}
    (hc : n.construct = .shortCircuit op left (some r)) (hx : e.answer (.execution r) = .ok x)
    (hy : e.answer (.implicitBranch i) = .ok y) :
    ∃ l, left = some l ∧ e.answer (.completion l) = .ok (x + y) := by
  rw [answer_eq h] at hy
  simp only [rule, implicitBranchRule, run_bind_eq_ok, run_lift, node_eq_ok, hn,
    Option.some.injEq, exists_eq_left', hc, required_eq_ok, run_count, hx, Except.ok.injEq,
    run_nonNegative, hw, Width.sub_unbounded] at hy
  obtain ⟨l, rfl, d, hd, rfl, -⟩ := hy
  exact ⟨l, rfl, by rw [hd, add_sub_cancel]⟩

/-- Where no tracker tells how often a safe navigation skips its call, the receiver was there or
was missing as often as it completed. -/
theorem completion_of_receiver (hw : e.width = .unbounded) {receiver : Slot}
    {arguments : List NodeId} (hc : n.construct = .safeNavigation receiver arguments)
    (ht : n.tracker? .nilReceiver = none) (hy : e.answer (.implicitBranch i) = .ok y) :
    ∃ r, receiver = some r ∧ e.answer (.completion r) = .ok (e.reading n .nonNil + y) := by
  rw [answer_eq h] at hy
  simp only [rule, implicitBranchRule, run_bind_eq_ok, run_lift, node_eq_ok, hn,
    Option.some.injEq, exists_eq_left', hc, ht, Option.isSome_none, Bool.false_eq_true, if_false,
    required_eq_ok, run_count, run_nonNegative, hw, Width.sub_unbounded] at hy
  obtain ⟨r, rfl, d, hd, rfl, -⟩ := hy
  exact ⟨r, rfl, by rw [hd, add_sub_cancel]⟩

/-- Whenever the condition of a loop completes, control goes on to the body or leaves the loop. -/
theorem completion_of_test (hw : e.width = .unbounded) {polarity : Polarity} {test : LoopTest}
    {condition : Slot} {b : NodeId} (hc : n.construct = .loop polarity test condition (some b))
    (hx : e.answer (.entry b) = .ok x) (hy : e.answer (.implicitBranch i) = .ok y) :
    ∃ c d u, condition = some c ∧ e.answer (.completion c) = .ok d ∧ e.Untested i test u ∧
      x + y = d + u := by
  rw [answer_eq h] at hy
  simp only [rule, implicitBranchRule, run_bind_eq_ok, run_lift, node_eq_ok, hn,
    Option.some.injEq, exists_eq_left', hc, required_eq_ok, run_count, hx, Except.ok.injEq,
    hw, Width.sub_unbounded] at hy
  obtain ⟨c, rfl, d, hd, hy⟩ := hy
  cases test with
  | before =>
    simp only [run_bind_eq_ok, run_pure, Except.ok.injEq, exists_eq_left', run_nonNegative] at hy
    obtain ⟨rfl, -⟩ := hy
    exact ⟨c, d, 0, rfl, hd, rfl, by omega⟩
  | after =>
    simp only [run_bind_eq_ok, run_pure, run_count, Except.ok.injEq, run_nonNegative] at hy
    obtain ⟨u, hu, _, rfl, rfl, -⟩ := hy
    exact ⟨c, d, u, rfl, hd, (gives_iff h).mpr hu, by omega⟩

/-- The arms of a dispatch from some arm on: it is tried as often as it or one of the arms after it
but the last is entered, or the last is tried. The induction goes along the arms, as the entry of
each tells that of the one before it. -/
theorem entry_of_arms {subject otherwise : Slot} {arms : List NodeId}
    (hc : n.construct = .dispatch subject arms otherwise) {before rest : List NodeId}
    {a last : NodeId} {xs : List Int} (harms : arms = before ++ a :: rest)
    (hxs : List.Forall₂
      (fun arm x => ∃ body, e.tree.armBody? arm = some body ∧ e.answer (.entry body) = .ok x)
      (a :: rest).dropLast xs)
    (hlast : (a :: rest).getLast? = some last) (hv : e.answer (.entry last) = .ok v) :
    e.answer (.entry a) = .ok (xs.sum + v) := by
  induction rest generalizing before a xs with
  | nil =>
    cases hxs
    obtain rfl : a = last := Option.some.inj hlast
    rw [hv, List.sum_nil, zero_add]
  | cons b rest ih =>
    rw [List.dropLast_cons_cons] at hxs
    cases hxs with
    | cons hx hxs =>
      rename_i x xs
      have harms' : arms = (before ++ [a]) ++ b :: rest := by simp [harms]
      have hb := ih harms' hxs (by rwa [List.getLast?_cons_cons] at hlast)
      have htried := unmatched_of_entry h hn hc harms' hb
      simp only [Unmatched, List.getLast?_concat, gives_iff h] at htried
      obtain ⟨m, patterns, body, tried, matched, hm, hcon, ht, hmt, hsum⟩ := htried
      obtain ⟨body', hbody, hx⟩ := hx
      obtain rfl : body = body' := by simpa [armBody?, hm, hcon] using hbody
      cases hmt.symm.trans hx
      rw [ht, List.sum_cons]
      congr 1
      omega

/-- All who come to the arms of a dispatch are matched by an arm before the last or try the last. -/
theorem reaching_of_arms {subject otherwise : Slot} {arms : List NodeId}
    (hc : n.construct = .dispatch subject arms otherwise) {last : NodeId} {xs : List Int}
    (hxs : List.Forall₂
      (fun arm x => ∃ body, e.tree.armBody? arm = some body ∧ e.answer (.entry body) = .ok x)
      arms.dropLast xs)
    (hlast : arms.getLast? = some last) (hv : e.answer (.entry last) = .ok v) :
    e.answer (reaching i subject) = .ok (xs.sum + v) := by
  cases arms with
  | nil => cases hlast
  | cons a arms =>
    have ha := entry_of_arms h hn hc (List.nil_append _).symm hxs hlast hv
    have hstart := unmatched_of_entry h hn hc (List.nil_append _).symm ha
    simpa only [Unmatched, List.getLast?_nil, gives_iff h] using hstart

end Constructs

end Flow.Evidence

/-! ### Records -/

namespace Report

/-- The counts of a record account for control. -/
structure Record.Accounts (r : Record) (e : Evidence) (n : Node) : Prop where
  conditional : ∀ {style condition whenTrue whenFalse},
    n.construct = .conditional style condition whenTrue whenFalse →
    ∃ c x y, condition = some c ∧ r.counts = [x, y] ∧
      ∀ earlier, e.lookup earlier (.completion c) = .ok (x + y)
  shortCircuit : ∀ {op left right}, n.construct = .shortCircuit op left right →
    ∃ c x y, left = some c ∧ r.counts = [x, y] ∧
      ∀ earlier, e.lookup earlier (.completion c) = .ok (x + y)
  safeNavigation : ∀ {receiver arguments}, n.construct = .safeNavigation receiver arguments →
    n.tracker? .nilReceiver = none →
    ∃ c x y, receiver = some c ∧ r.counts = [x, y] ∧
      ∀ earlier, e.lookup earlier (.completion c) = .ok (x + y)
  dispatch : ∀ {subject arms otherwise last v}, n.construct = .dispatch subject arms otherwise →
    arms.getLast? = some last → e.Gives (.entry last) v →
    r.counts.length = arms.length + 1 ∧
      ∀ earlier, e.lookup earlier (reaching r.node subject) =
        .ok ((r.counts.take (arms.length - 1)).sum + v)
  loop : ∀ {polarity test condition body left}, n.construct = .loop polarity test condition body →
    e.Gives (.implicitBranch r.node) left →
    ∃ c x d u, condition = some c ∧ r.counts = [x] ∧
      (∀ earlier, e.lookup earlier (.completion c) = .ok d) ∧ e.Untested r.node test u ∧
      x + left = d + u

/-- A branch that is direct is entered as often as it is executed. -/
theorem entry_of_outlet {e : Evidence} {n : Node} (hl : e.tree.Linked)
    (hd : ∀ c ∈ n.construct.outlets e.tree, ∀ m, e.tree.nodes[c]? = some m → m.construct.Direct)
    {c : NodeId} (hc : c ∈ n.construct.outlets e.tree) {v : Int}
    (hv : e.answer (.execution c) = .ok v) : e.answer (.entry c) = .ok v := by
  have hrun := hv
  rw [answer_eq hl] at hrun
  obtain ⟨m, hm, -⟩ := run_executionRule.mp hrun
  exact entry_of_execution hl hm (arrival_of_direct (hd c hc m hm)) hv

theorem exists_pair_of_forall₂ {α β : Type} {R : α → β → Prop} {a b : α} {xs : List β}
    (h : List.Forall₂ R [a, b] xs) : ∃ x y, xs = [x, y] ∧ R a x ∧ R b y := by
  cases h with | cons hx h =>
  cases h with | cons hy h =>
  cases h
  exact ⟨_, _, rfl, hx, hy⟩

section Records

variable {e : Evidence} {r : Record} {n : Node} {tag : Tag} {outs : List (Tag × Option Tally)}
  (hscheme : n.construct.scheme e.tree r.node = some (tag, outs))
  (houts : List.Forall₂ (Counts e r.node) outs r.counts)

include hscheme houts

/-- The record of a construct counts its branches in the order of its runs, unless it is a safe
navigation or a loop. -/
theorem tells_of_counts (hs : n.kind ≠ .safeNavigation) (hk : n.kind ≠ .loop) :
    List.Forall₂ (Tells e.answer e r.node) (n.construct.parts e.tree r.node) r.counts := by
  have hcounts : List.Forall₂ (Tells e.answer e r.node) (outs.map (·.2)) r.counts :=
    List.forall₂_map_left_iff.mpr houts
  rw [Construct.parts_of_scheme hscheme]
  split
  next h => exact absurd h hs
  next h => exact absurd h hk
  next => exact hcounts

variable (hl : e.tree.Linked) (hw : e.width = .unbounded) (hn : e.tree.nodes[r.node]? = some n)
  (hd : ∀ c ∈ n.construct.outlets e.tree, ∀ m, e.tree.nodes[c]? = some m → m.construct.Direct)

include hl hw hn hd

theorem conditional_accounts {style : Style} {condition whenTrue whenFalse : Slot}
    (hc : n.construct = .conditional style condition whenTrue whenFalse) :
    ∃ c x y, condition = some c ∧ r.counts = [x, y] ∧
      ∀ earlier, e.lookup earlier (.completion c) = .ok (x + y) := by
  have hparts := tells_of_counts hscheme houts (by simp [Node.kind, hc, Construct.kind])
    (by simp [Node.kind, hc, Construct.kind])
  rw [hc] at hparts
  obtain ⟨x, y, hcounts, hx, hy⟩ := exists_pair_of_forall₂ hparts
  obtain ⟨a, rfl, ha⟩ := tells_reach.mp hx
  obtain ⟨b, rfl, hb⟩ := tells_reach.mp hy
  have ha := entry_of_outlet hl hd (by simp [hc, Construct.outlets]) ha
  have hb := entry_of_outlet hl hd (by simp [hc, Construct.outlets]) hb
  obtain ⟨c, rfl, hcompletion⟩ := completion_of_condition hl hn hw hc ha hb
  exact ⟨c, x, y, rfl, hcounts, fun earlier => (lookup_eq hl earlier _).trans hcompletion⟩

omit hd in
theorem shortCircuit_accounts {op : Connective} {left right : Slot}
    (hc : n.construct = .shortCircuit op left right) :
    ∃ c x y, left = some c ∧ r.counts = [x, y] ∧
      ∀ earlier, e.lookup earlier (.completion c) = .ok (x + y) := by
  have hparts := tells_of_counts hscheme houts (by simp [Node.kind, hc, Construct.kind])
    (by simp [Node.kind, hc, Construct.kind])
  rw [hc] at hparts
  obtain ⟨x, y, hcounts, hx, hy⟩ := exists_pair_of_forall₂ hparts
  obtain ⟨b, rfl, hb⟩ := tells_reach.mp hx
  obtain ⟨c, rfl, hcompletion⟩ := completion_of_left hl hn hw hc hb (tells_derived.mp hy)
  exact ⟨c, x, y, rfl, hcounts, fun earlier => (lookup_eq hl earlier _).trans hcompletion⟩

omit hd in
theorem safeNavigation_accounts {receiver : Slot} {arguments : List NodeId}
    (hc : n.construct = .safeNavigation receiver arguments) (ht : n.tracker? .nilReceiver = none) :
    ∃ c x y, receiver = some c ∧ r.counts = [x, y] ∧
      ∀ earlier, e.lookup earlier (.completion c) = .ok (x + y) := by
  rw [hc] at hscheme
  cases hscheme
  obtain ⟨x, y, hcounts, hx, hy⟩ := exists_pair_of_forall₂ houts
  obtain ⟨c, rfl, hcompletion⟩ := completion_of_receiver hl hn hw hc ht (tells_derived.mp hy)
  obtain ⟨n', hn', hx⟩ := bind_eq_ok.mp (tells_hits.mp hx)
  rw [Tree.node_eq_ok, hn] at hn'
  cases hn'
  cases hx
  exact ⟨c, _, y, rfl, hcounts, fun earlier => (lookup_eq hl earlier _).trans hcompletion⟩

omit hw in
theorem dispatch_accounts {subject otherwise : Slot} {arms : List NodeId} {last : NodeId} {v : Int}
    (hc : n.construct = .dispatch subject arms otherwise) (hlast : arms.getLast? = some last)
    (hv : e.Gives (.entry last) v) :
    r.counts.length = arms.length + 1 ∧
      ∀ earlier, e.lookup earlier (reaching r.node subject) =
        .ok ((r.counts.take (arms.length - 1)).sum + v) := by
  have hparts := tells_of_counts hscheme houts (by simp [Node.kind, hc, Construct.kind])
    (by simp [Node.kind, hc, Construct.kind])
  rw [hc, Construct.parts] at hparts
  have hlength : r.counts.length = arms.length + 1 := by simpa using hparts.length_eq.symm
  refine ⟨hlength, fun earlier => ?_⟩
  have htake := List.forall₂_take (arms.length - 1) hparts
  rw [List.take_append_of_le_length (by simp), ← List.map_take, ← List.dropLast_eq_take,
    List.forall₂_map_left_iff] at htake
  rw [lookup_eq hl]
  refine reaching_of_arms hl hn hc ?_ hlast ((gives_iff hl).mp hv)
  have hmem : ∀ arm ∈ arms.dropLast, arm ∈ arms := fun _ => List.mem_of_mem_dropLast
  refine ((List.forall₂_and_left _ _).mpr ⟨hmem, htake⟩).imp fun arm x hx => ?_
  obtain ⟨harm, hx⟩ := hx
  obtain ⟨body, hbody, hx⟩ := tells_reach.mp hx
  refine ⟨body, hbody, entry_of_outlet hl hd ?_ hx⟩
  rw [hc, Construct.outlets]
  exact List.mem_append_left _ (List.mem_filterMap.mpr ⟨arm, harm, hbody⟩)

theorem loop_accounts {polarity : Polarity} {test : LoopTest} {condition body : Slot} {left : Int}
    (hc : n.construct = .loop polarity test condition body)
    (hleft : e.Gives (.implicitBranch r.node) left) :
    ∃ c x d u, condition = some c ∧ r.counts = [x] ∧
      (∀ earlier, e.lookup earlier (.completion c) = .ok d) ∧ e.Untested r.node test u ∧
      x + left = d + u := by
  have houts : List.Forall₂ (Counts e r.node) [entered .bodyTag body] r.counts := by
    rw [hc] at hscheme
    cases polarity <;> cases hscheme <;> exact houts
  obtain ⟨x, xs, hx, hxs, hcounts⟩ := List.forall₂_cons_left_iff.mp houts
  cases hxs
  obtain ⟨b, rfl, hb⟩ := tells_reach.mp hx
  have hb := entry_of_outlet hl hd (by simp [hc, Construct.outlets]) hb
  obtain ⟨c, d, u, rfl, hcompletion, hu, hsum⟩ :=
    completion_of_test hl hn hw hc hb ((gives_iff hl).mp hleft)
  exact ⟨c, x, d, u, rfl, hcounts, fun earlier => (lookup_eq hl earlier _).trans hcompletion, hu,
    hsum⟩

theorem accounts_of_counts : r.Accounts e n where
  conditional := conditional_accounts hscheme houts hl hw hn hd
  shortCircuit := shortCircuit_accounts hscheme houts hl hw hn
  safeNavigation := safeNavigation_accounts hscheme houts hl hw hn
  dispatch := dispatch_accounts hscheme houts hl hn hd
  loop := loop_accounts hscheme houts hl hw hn hd

end Records

/-- On a loaded tree with a report, whatever was asked before, every record accounts for control of
whose branches none is a rescue that watches a body or a handler arm. -/
theorem accounts_of_build {t : Tree} (ht : t.Loaded) (counters : Counters) (source : Source)
    {m : Memory} (hm : m.Sound (whole t counters)) {rs : List Record}
    (h : (build (whole t counters) source m).result = .ok rs) :
    ∀ r ∈ rs, ∃ n, t.nodes[r.node]? = some n ∧
      ((∀ c ∈ n.construct.outlets t, ∀ m, t.nodes[c]? = some m → m.construct.Direct) →
        r.Accounts (whole t counters) n) := by
  intro r hr
  have hl : (whole t counters).tree.Linked := ht.linked
  obtain ⟨n, tag, outs, hn, hscheme, houts⟩ := counts_of_record hl hm h hr
  exact ⟨n, hn, fun hd => accounts_of_counts hscheme houts hl rfl hn hd⟩

/-- Ten runs through `Tree.straying` with a report in which nothing strays. Six of them take one of
the first three arms of the `case` and one the fourth, and the others try the last. -/
theorem accounts_of_build_straying :
    let e := whole .straying (.ofList [(1, 10), (2, 2), (3, 2), (4, 2), (5, 5), (6, 7), (7, 2),
      (8, 1), (9, 1), (10, 1), (11, 1), (12, 1), (13, 1), (14, 1), (15, 1)])
    ∃ rs, (build e ⟨[]⟩ e.memory).result = .ok rs ∧
      rs.map (fun r => (r.node, r.counts)) =
        [(0, [2, 2, 2, 1, 1, 2]), (7, [5]), (12, [1, 1]), (18, [1, 0]), (22, [1, 0])] ∧
      (∀ r ∈ rs, ∃ n, e.tree.nodes[r.node]? = some n ∧ r.Accounts e n) ∧
      e.lookup [] (.completion 1) = .ok (2 + 2 + 2 + 1 + 3) := by
  intro e
  have hcounts : (build e ⟨[]⟩ e.memory).result.map (·.map fun r => (r.node, r.counts)) =
      .ok [(0, [2, 2, 2, 1, 1, 2]), (7, [5]), (12, [1, 1]), (18, [1, 0]), (22, [1, 0])] := by
    decide +kernel
  obtain ⟨rs, hrs, hcounts⟩ := map_eq_ok.mp hcounts
  have hdirect : ∀ (c : NodeId) (m : Node), e.tree.nodes[c]? = some m → m.construct.Direct := by
    intro c m hm
    have hc : c < 26 := Tree.size_of_node hm
    interval_cases c <;> cases hm <;> exact trivial
  have haccounts : ∀ r ∈ rs, ∃ n, e.tree.nodes[r.node]? = some n ∧ r.Accounts e n := by
    intro r hr
    obtain ⟨n, hn, h⟩ :=
      accounts_of_build Tree.straying_loaded e.counters ⟨[]⟩ (memory_sound e) hrs r hr
    exact ⟨n, hn, h fun c _ => hdirect c⟩
  refine ⟨rs, hrs, hcounts, haccounts, ?_⟩
  obtain ⟨r, hr, hshown⟩ : ∃ r ∈ rs, (r.node, r.counts) = (0, [2, 2, 2, 1, 1, 2]) :=
    List.mem_map.mp (hcounts ▸ List.mem_cons_self)
  rw [Prod.mk.injEq] at hshown
  obtain ⟨n, hn, h⟩ := haccounts r hr
  rw [hshown.1] at hn
  cases hn
  have hlast : e.Gives (.entry 20) 3 := ⟨[], by decide +kernel⟩
  have hsubject := (h.dispatch rfl rfl hlast).2 []
  rw [hshown.2] at hsubject
  exact hsubject

end Report

end BranchTally
