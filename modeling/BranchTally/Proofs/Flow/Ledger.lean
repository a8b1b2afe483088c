import BranchTally.Proofs.Flow.Backward
import BranchTally.Proofs.Flow.Sums
import BranchTally.Proofs.Tree.Order
import Mathlib.Tactic.IntervalCases

/-! A ledger of what control loses. In a tree without exception handling, control that enters a
node and does not complete it was lost in a call below, where more arrivals than completions were
counted. The loss of a node is its own loss and that of its children, whatever the construct, and
so by induction the sum of the losses of all nodes below it. -/

namespace BranchTally

open BranchTally.Flow

/-- All nodes are of kinds in which control goes on with the next slot or leaves the tree, and a
safe navigation finds out by its receiver how often it skips its call. -/
structure Tree.Straight (t : Tree) : Prop where
  kind : ∀ {i : NodeId} {n : Node}, t.nodes[i]? = some n →
    n.kind ∈ [Kind.expression, .sequence, .emptyBody, .conditional, .shortCircuit, .safeNavigation,
      .loop]
  receiver : ∀ {i : NodeId} {n : Node}, t.nodes[i]? = some n → n.kind = .safeNavigation →
    n.tracker? .nilReceiver = none

namespace Flow.Evidence

open Flow.Derivation BranchTally.Tree

/-! ### Losses -/

section Loss

variable (e : Evidence) (entry completion : NodeId → Int)

/-- How often control came to the end of a row of nodes, if it came to the first so many times. -/
def arrivals (ids : List NodeId) (entered : Int) : Int :=
  match ids.getLast? with
  | some id => completion id
  | none => entered

/-- How many of the arrivals at a call are missing among its completions, if these are counted. -/
def shortfall (n : Node) (ids : List NodeId) (entered : Int) : Int :=
  if (n.tracker? .completion).isSome then
    arrivals completion ids entered - e.reading n .completion
  else 0

/-- How often control was lost at a node itself. -/
def loss (id : NodeId) : Int :=
  match e.tree.nodes[id]? with
  | none => 0
  | some n =>
    match n.construct with
    | .expression _ operands => e.shortfall completion n operands (entry id)
    | .safeNavigation _ arguments => e.shortfall completion n arguments (e.reading n .nonNil)
    | _ => 0

end Loss

/-- Every entry and every completion comes out, as these functions say. -/
structure Told (e : Evidence) (entry completion : NodeId → Int) : Prop where
  entry_eq : ∀ {i : NodeId}, i < e.tree.size → e.answer (.entry i) = .ok (entry i)
  completion_eq : ∀ {i : NodeId}, i < e.tree.size →
    e.answer (.completion i) = .ok (completion i)

variable {e : Evidence} {entry completion : NodeId → Int} {i c : NodeId} {n : Node} {u v x : Int}
  {ids : List NodeId}

/-- Whatever reaches the start of a node has entered it. -/
theorem entry_of_straight (h : e.tree.Linked) (hs : e.tree.Straight)
    (hx : e.answer (.execution c) = .ok x) : e.answer (.entry c) = .ok x := by
  have hrun := hx
  rw [answer_eq h] at hrun
  obtain ⟨m, hm, -⟩ := run_executionRule.mp hrun
  have hkind := hs.kind hm
  apply entry_of_execution h hm _ hx
  cases hc : m.construct with
  | rescue watched handlers otherwise => simp [Node.kind, hc, Construct.kind] at hkind
  | handler exceptions assignment body => simp [Node.kind, hc, Construct.kind] at hkind
  | _ => simp only [arrival, hc]

section Steps

variable (h : e.tree.Linked) (ht : e.Told entry completion)

include h ht

theorem Flows.lost (hf : e.Flows c u v) : u - v = entry c - completion c := by
  have hc := node_of_entry h hf.entry
  cases hf.entry.symm.trans (ht.entry_eq hc)
  cases hf.completion.symm.trans (ht.completion_eq hc)
  rfl

/-- Along a chain, what is lost in all is lost at one of its nodes. -/
theorem Chain.lost (hc : e.Chain u ids v) :
    u - v = (ids.map fun c => entry c - completion c).sum := by
  induction hc with
  | nil => simp
  | snoc hch hf ih =>
    have := hf.lost h ht
    simp only [List.map_append, List.sum_append, List.map_cons, List.map_nil, List.sum_singleton]
    omega

variable (hb : ∀ c, e.Bounded c)

include hb

/-- What a call loses after a row of nodes is lost in the row, or a shortfall. -/
theorem Finishes.lost (hs : e.Consecutive u ids) (hids : ∀ c ∈ ids, c < e.tree.size)
    (hf : e.Finishes n ids u v) :
    u - v = e.shortfall completion n ids u + (ids.map fun c => entry c - completion c).sum := by
  have hlast : (lastCompletion ids u).run e.answer = .ok (arrivals completion ids u) := by
    unfold lastCompletion arrivals
    cases hl : ids.getLast? with
    | some c => simpa using ht.completion_eq (hids c (List.mem_of_getLast? hl))
    | none => rfl
  have hrow := (hs.chain h (fun c _ => hb c) hlast).lost h ht
  rcases hf with ⟨hk, rfl⟩ | ⟨hk, hv⟩
  · rw [shortfall, if_pos hk]
    omega
  · cases hlast.symm.trans hv
    rw [shortfall, if_neg (by simp [hk])]
    omega

variable (hw : e.width = .unbounded)

include hw

/-- The loss of a node is its own and that of its children. -/
theorem lost_step (hs : e.tree.Straight) (hn : e.tree.nodes[i]? = some n) :
    entry i - completion i = e.loss entry completion i +
      (n.construct.present.map fun c => entry c - completion c).sum := by
  have hi := size_of_node hn
  have hu := ht.entry_eq hi
  obtain ⟨n', u, hn', hf, hv, -⟩ := flows_of_completion h (hb i) (ht.completion_eq hi)
  rw [hn] at hn'
  cases hn'
  have hslots : ∀ c ∈ n.construct.present, c < e.tree.size := fun c hc => (h.lt_of_present hn hc).2
  have hchildren : ∀ c ∈ n.construct.present, e.Bounded c := fun c _ => hb c
  have hkind := hs.kind hn
  simp only [loss, hn]
  cases hc : n.construct with
  | expression type operands =>
    rw [hc] at hslots
    obtain ⟨hrow, hfin⟩ := expression_flows h hn hu hv hc
    exact hfin.lost h ht hb hrow hslots
  | sequence explicit statements =>
    rw [Int.zero_add]
    exact (sequence_flows h hn hu hv hchildren hc).lost h ht
  | emptyBody =>
    have : entry i = completion i := by simpa [fallThrough, hc, hu] using hv
    simp [Construct.present, this]
  | conditional style condition whenTrue whenFalse =>
    obtain ⟨c, a, b, d, x, y, rfl, rfl, rfl, hfc, hfa, hfb, hsum⟩ :=
      conditional_flows h hn hu hv hchildren hc
    have hlc := hfc.lost h ht
    have hla := hfa.lost h ht
    have hlb := hfb.lost h ht
    simp only [hw, Width.add_unbounded, Width.sub_unbounded] at hlb hsum
    simp [Construct.present]
    omega
  | shortCircuit op left right =>
    obtain ⟨l, r, d, y, x, rfl, rfl, hfl, hfr, hx, hsum⟩ :=
      shortCircuit_flows h hn hu hv hchildren hc
    have hll := hfl.lost h ht
    have hlr := hfr.lost h ht
    cases (entry_of_straight h hs hx).symm.trans hfr.entry
    simp only [hw, Width.add_unbounded, Width.sub_unbounded] at hsum
    simp [Construct.present]
    omega
  | safeNavigation receiver arguments =>
    obtain ⟨r, d, x, rfl, hfr, hrow, hfin, hsum⟩ := safeNavigation_flows h hn hu hv hchildren hc
      (hs.receiver hn (by simp [Node.kind, hc, Construct.kind]))
    have hlr := hfr.lost h ht
    have hla := hfin.lost h ht hb hrow fun c hcm => hslots c (by simp [hc, hcm, Construct.present])
    simp only [hw, Width.add_unbounded, Width.sub_unbounded] at hsum
    simp [Construct.present]
    omega
  | loop polarity test condition body =>
    obtain ⟨c, b, d, w, x, rfl, rfl, hfb, hfc⟩ := loop_flows h hn hu hv hchildren hc
    have hlb := hfb.lost h ht
    simp only [hw, Width.add_unbounded, Width.sub_unbounded] at hfc
    rcases hfc with ⟨-, hfc, hsum⟩ | ⟨-, hfc, hsum⟩
    all_goals
      have hlc := hfc.lost h ht
      simp [Construct.present]
      omega
  | _ => simp [Node.kind, hc, Construct.kind] at hkind

end Steps

/-- On a loaded tree in which control leaves a node by falling through or in a call, the entries and
completions of a node differ by what the calls below it lost. -/
theorem entry_sub_completion {t : Tree} (hl : t.Loaded) (hs : t.Straight) (counters : Counters)
    (entry completion : NodeId → Int)
    (hentry : ∀ i < t.size, (whole t counters).Gives (.entry i) (entry i))
    (hcompletion : ∀ i < t.size, (whole t counters).Gives (.completion i) (completion i)) :
    ∀ i < t.size, entry i - completion i =
      ((t.subtree t.size i).map ((whole t counters).loss entry completion)).sum := by
  have h : t.Linked := hl.linked
  have ht : (whole t counters).Told entry completion :=
    ⟨fun hi => (gives_iff h).mp (hentry _ hi), fun hi => (gives_iff h).mp (hcompletion _ hi)⟩
  have hb : ∀ c, (whole t counters).Bounded c := by
    intro c m hm hk
    have hkind := hs.kind hm
    simp [hk] at hkind
  intro i hi
  apply h.sum_subtree (f := fun i => entry i - completion i) _ hi
  intro i hi
  have hn : t.nodes[i]? = some t.nodes[i] := Array.getElem?_eq_getElem hi
  rw [childrenOf_eq hn, ← h.present_eq hn]
  exact lost_step (e := whole t counters) h ht hb rfl hs hn

end Flow.Evidence

/-- Work that is polled and then handed on: `begin poll(queue) end while ready && more; if found
then sink&.accept(1) end`. -/
def Dump.polling : Dump :=
  .node "begin" 1 none [("entry", "1")]
    [.node "while_post" 1 none [("body", "2")]
      [.node "and" 1 none [("conditional", "3")]
        [.node "send" 1 none [("completion", "4")] [],
          .node "send" 1 none [("completion", "5")] []],
        .node "send" 1 none [("completion", "6")] [.node "send" 1 none [("completion", "7")] []]],
      .node "if" 2 none [("truthy", "8")]
        [.node "lvar" 2 none [] [],
          .node "csend" 2 none [("non_nil", "9"), ("completion", "10")]
            [.node "lvar" 2 none [] [], .node "int" 2 none [] []],
          .node "empty" 2 none [] []]]

def Tree.polling : Tree :=
  ⟨#[⟨.sequence false [1, 7], none, none, 0, [1, 7], [(.entry, 1)], []⟩,
    ⟨.loop .whileTrue .after (some 2) (some 5), none, some 0, 0, [2, 5], [(.body, 2)], []⟩,
    ⟨.shortCircuit .conjunction (some 3) (some 4), none, some 1, 0, [3, 4],
      [(.conditional, 3)], []⟩,
    ⟨.expression "send" [], none, some 2, 0, [], [(.completion, 4)], []⟩,
    ⟨.expression "send" [], none, some 2, 1, [], [(.completion, 5)], []⟩,
    ⟨.expression "send" [6], none, some 1, 1, [6], [(.completion, 6)], []⟩,
    ⟨.expression "send" [], none, some 5, 0, [], [(.completion, 7)], []⟩,
    ⟨.conditional .plain (some 8) (some 9) (some 12), none, some 0, 1, [8, 9, 12],
      [(.truthy, 8)], []⟩,
    ⟨.expression "lvar" [], none, some 7, 0, [], [], []⟩,
    ⟨.safeNavigation (some 10) [11], none, some 7, 1, [10, 11],
      [(.completion, 10), (.nonNil, 9)], []⟩,
    ⟨.expression "lvar" [], none, some 9, 0, [], [], []⟩,
    ⟨.expression "int" [], none, some 9, 1, [], [], []⟩,
    ⟨.emptyBody, none, some 7, 2, [], [], []⟩]⟩

theorem Tree.polling_loaded : Tree.polling.Loaded := ⟨"polling", .polling, by decide +kernel⟩

theorem Tree.polling_straight : Tree.polling.Straight where
  kind {i n} hn := by
    have hi : i < 13 := size_of_node hn
    interval_cases i <;> cases hn <;> decide
  receiver {i n} hn hk := by
    have hi : i < 13 := size_of_node hn
    interval_cases i <;> cases hn <;> rfl

/-- One poll fails after its argument was read, and the sink fails once. -/
theorem Flow.Evidence.entry_sub_completion_polling :
    let e := whole .polling (.ofList
      [(1, 2), (2, 5), (3, 4), (4, 4), (5, 4), (6, 4), (7, 5), (8, 1), (9, 1), (10, 0)])
    let entry := fun i => [2, 2, 4, 4, 4, 5, 5, 1, 1, 1, 1, 1, 0].getD i 0
    let completion := fun i => [0, 1, 4, 4, 4, 4, 5, 0, 1, 0, 1, 1, 0].getD i 0
    e.lookup [] (.entry 0) = .ok 2 ∧ e.lookup [] (.completion 0) = .ok 0 ∧
      e.loss entry completion 5 = 1 ∧ e.loss entry completion 9 = 1 ∧
      2 - 0 = ((Tree.polling.subtree 13 0).map (e.loss entry completion)).sum := by
  intro e entry completion
  have hentry : ∀ i < 13, e.lookup [] (.entry i) = .ok (entry i) := by decide +kernel
  have hcompletion : ∀ i < 13, e.lookup [] (.completion i) = .ok (completion i) := by decide +kernel
  have h := entry_sub_completion Tree.polling_loaded Tree.polling_straight _ entry completion
    (fun i hi => ⟨[], hentry i hi⟩) (fun i hi => ⟨[], hcompletion i hi⟩) 0 (by decide)
  exact ⟨hentry 0 (by decide), hcompletion 0 (by decide), by decide +kernel, by decide +kernel, h⟩

end BranchTally
