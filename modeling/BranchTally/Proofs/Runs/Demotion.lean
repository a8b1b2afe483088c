import BranchTally.Proofs.Report.Checks
import BranchTally.Proofs.Runs.Agreement

/-! What demotion does to runs. A construct is covered in part if it ran and one of its branches did
not, or if a branch of it that ran is itself covered in part, to any depth. Demotion sets exactly the
runs of these constructs to zero, in one sweep: as branches stand after the construct that they
belong to, and the sweep goes backwards, it finds every branch as it will be in the end. A second
sweep finds nothing to do. -/

namespace BranchTally

open BranchTally.Flow Flow.Derivation Flow.Evidence Report

variable {t : Tree} {e : Evidence} {runs current next out : Runs} {id c : NodeId} {n : Node}
  {k : Nat}

/-! ### The branches of a construct -/

theorem armBody?_eq_some {arm : NodeId} : t.armBody? arm = some c ↔
    ∃ m patterns, t.nodes[arm]? = some m ∧ m.construct = .arm patterns (some c) := by
  unfold Tree.armBody?
  cases hm : t.nodes[arm]? with
  | none => simp
  | some m => cases hc : m.construct <;> simp [hc]

/-- A branch that is a node stands after the construct that it belongs to. -/
theorem Tree.Linked.lt_of_outlet (h : t.Linked) (hn : t.nodes[id]? = some n)
    (hc : c ∈ n.construct.outlets t) : id < c := by
  cases hcon : n.construct with
  | dispatch subject arms otherwise =>
    simp only [hcon, Construct.outlets, List.mem_append, List.mem_filterMap, Option.mem_toList] at hc
    rcases hc with ⟨arm, harm, hbody⟩ | rfl
    · obtain ⟨m, patterns, hm, hmc⟩ := armBody?_eq_some.mp hbody
      have harm := (h.lt_of_present hn (c := arm) (by simp [hcon, harm, Construct.present])).1
      exact harm.trans (h.lt_of_present hm (by simp [hmc, Construct.present])).1
    · exact (h.lt_of_present hn (by simp [hcon, Construct.present])).1
  | conditional | shortCircuit | loop =>
    simp only [hcon, Construct.outlets, List.mem_append, Option.mem_toList] at hc
    refine (h.lt_of_present hn ?_).1
    rw [hcon]
    grind [Construct.present]
  | _ => simp [hcon, Construct.outlets] at hc

/-- The parts of a construct that are nodes are its outlets. -/
theorem Construct.reach_mem_parts {con : Construct} :
    reach (some c) ∈ con.parts t id ↔ c ∈ con.outlets t := by
  cases con with
  | dispatch subject arms otherwise =>
    cases otherwise <;> simp [parts, outlets, reach, eq_comm]
  | conditional style condition whenTrue whenFalse =>
    cases whenTrue <;> cases whenFalse <;> simp [parts, outlets, reach, eq_comm]
  | shortCircuit op left right => cases right <;> simp [parts, outlets, reach, eq_comm]
  | loop polarity test condition body => cases body <;> simp [parts, outlets, reach, eq_comm]
  | _ => simp [parts, outlets, reach]

theorem Construct.hits_mem_parts {con : Construct} :
    some (.hits .nonNil) ∈ con.parts t id ↔ con.kind = .safeNavigation := by
  cases con <;> simp [parts, kind, reach]

theorem Construct.isBranching_of_outlet {con : Construct} (h : c ∈ con.outlets t) :
    con.kind.isBranching := by
  cases con <;> first | rfl | cases h

/-- A construct with a branch without a node counts it among its branches. -/
theorem Flow.Evidence.implicitBranch_mem_parts {v : Int} (h : e.tree.Linked)
    (hn : e.tree.nodes[id]? = some n) (hv : e.answer (.implicitBranch id) = .ok v) :
    n.kind.isBranching ∧ some (.derived (.implicitBranch id)) ∈ n.construct.parts e.tree id := by
  rw [answer_eq h] at hv
  obtain ⟨n', hn', hv⟩ := run_bind_eq_ok.mp hv
  rw [run_lift, Tree.node_eq_ok, hn] at hn'
  cases hn'
  cases hc : n.construct with
  | shortCircuit | safeNavigation | loop =>
    simp [Node.kind, hc, Construct.kind, Kind.isBranching, Construct.parts]
  | _ =>
    rw [hc] at hv
    cases hv

namespace Runs

/-- A construct misses a branch, which did not run. -/
def Misses (e : Evidence) (runs : Runs) (id : NodeId) (n : Node) : Prop :=
  (∃ c ∈ n.construct.outlets e.tree, runs[c]? = some 0) ∨ e.Gives (.implicitBranch id) 0 ∨
    n.kind = .safeNavigation ∧ e.reading n .nonNil = 0

/-- A construct that branches and ran is covered in part if it misses a branch, or if one of its
branches is covered in part itself. -/
inductive PartlyCovered (e : Evidence) (runs : Runs) : NodeId → Prop
  | misses {id : NodeId} {n : Node} {v : Int} : e.tree.nodes[id]? = some n → n.kind.isBranching →
    runs[id]? = some v → v ≠ 0 → Misses e runs id n → PartlyCovered e runs id
  | branch {id c : NodeId} {n : Node} {v : Int} : e.tree.nodes[id]? = some n →
    n.kind.isBranching → runs[id]? = some v → v ≠ 0 → c ∈ n.construct.outlets e.tree →
    PartlyCovered e runs c → PartlyCovered e runs id

section Node

variable {bs : List Int} {v : Int} (h : e.tree.Linked) (hn : e.tree.nodes[id]? = some n)

include h hn

/-- One of the branches is zero exactly if the construct misses one. -/
theorem zero_mem_iff_misses
    (hb : List.Forall₂ (Tells (runs.overlay e) e id) (n.construct.parts e.tree id) bs) :
    0 ∈ bs ↔ Misses e runs id n := by
  have hnode : e.hits id .nonNil = .ok (e.reading n .nonNil) := by
    rw [Evidence.hits, Tree.node_eq_ok.mpr hn]
    rfl
  have hmem : ∀ {part v}, part ∈ n.construct.parts e.tree id →
      Tells (runs.overlay e) e id part v → v ∈ bs := by
    intro part v hpart hv
    obtain ⟨w, hw, hpart⟩ := exists_right_of_forall₂ hb hpart
    rwa [tells_rightUnique _ e id hv hpart]
  constructor
  · intro hz
    obtain ⟨part, hpart, hz⟩ := exists_left_of_forall₂ hb hz
    rcases Construct.mem_parts hpart with ⟨slot, rfl⟩ | rfl | rfl
    · obtain ⟨c, rfl, hc⟩ := tells_reach.mp hz
      exact .inl ⟨c, Construct.reach_mem_parts.mp hpart, at?_eq_ok.mp hc⟩
    · have hz : runs.overlay e (.implicitBranch id) = .ok 0 := tells_derived.mp hz
      exact .inr (.inl ((gives_iff h).mpr hz))
    · have hz := hnode.symm.trans (tells_hits.mp hz)
      exact .inr (.inr ⟨Construct.hits_mem_parts.mp hpart, Except.ok.inj hz⟩)
  · rintro (⟨c, hc, hz⟩ | hz | ⟨hk, hz⟩)
    · exact hmem (Construct.reach_mem_parts.mpr hc) (tells_reach.mpr ⟨c, rfl, at?_eq_ok.mpr hz⟩)
    · have hz := (gives_iff h).mp hz
      exact hmem (implicitBranch_mem_parts h hn hz).2 (tells_derived.mpr hz)
    · exact hmem (Construct.hits_mem_parts.mpr hk) (tells_hits.mpr (hz ▸ hnode))

/-- If no node has negative runs, then the least of the branches is zero exactly if the construct
misses one. -/
theorem least_iff_misses (hh : ∀ tracker, 0 ≤ e.counters.hits e.width tracker)
    (hruns : ∀ (i : NodeId) (v : Int), runs[i]? = some v → 0 ≤ v)
    (hb : (branches e runs id).run e.answer = .ok bs) :
    bs.min? = some 0 ↔ Misses e runs id n := by
  obtain ⟨n', hn', hb⟩ := run_branches hb
  cases hn.symm.trans hn'
  rw [List.min?_eq_some_iff, zero_mem_iff_misses h hn hb, and_iff_left_iff_imp]
  intro _ v hv
  obtain ⟨part, hpart, hv⟩ := exists_left_of_forall₂ hb hv
  exact nonneg_of_tells hpart h hh hruns hv

theorem isBranching_of_misses (hm : Misses e runs id n) : n.kind.isBranching := by
  rcases hm with ⟨c, hc, -⟩ | hz | ⟨hk, -⟩
  · exact Construct.isBranching_of_outlet hc
  · exact (implicitBranch_mem_parts h hn ((gives_iff h).mp hz)).1
  · rw [hk]
    rfl

theorem partlyCovered_iff (hv : runs[id]? = some v) : PartlyCovered e runs id ↔
    v ≠ 0 ∧ (Misses e runs id n ∨ ∃ c ∈ n.construct.outlets e.tree, PartlyCovered e runs c) := by
  constructor
  · intro hp
    cases hp with
    | misses hn' _ hv' h0 hm =>
      cases hn.symm.trans hn'
      cases hv.symm.trans hv'
      exact ⟨h0, .inl hm⟩
    | branch hn' _ hv' h0 hc hp =>
      cases hn.symm.trans hn'
      cases hv.symm.trans hv'
      exact ⟨h0, .inr ⟨_, hc, hp⟩⟩
  · rintro ⟨h0, hm | ⟨c, hc, hp⟩⟩
    · exact .misses hn (isBranching_of_misses h hn hm) hv h0 hm
    · exact .branch hn (Construct.isBranching_of_outlet hc) hv h0 hc hp

end Node

theorem PartlyCovered.ne_zero (h : PartlyCovered e runs id) :
    ∃ v, runs[id]? = some v ∧ v ≠ 0 := by
  cases h with
  | misses _ _ hv h0 | branch _ _ hv h0 => exact ⟨_, hv, h0⟩

/-! ### The sweep -/

/-- The sweep has come back to node `k`: the nodes from there on that are covered in part have no
runs any more, and all other nodes have theirs. -/
structure Swept (e : Evidence) (runs : Runs) (k : Nat) (current : Runs) : Prop where
  size : current.size = runs.size
  ahead : ∀ j < k, current[j]? = runs[j]?
  demoted : ∀ j, k ≤ j → PartlyCovered e runs j → current[j]? = some 0
  kept : ∀ j, k ≤ j → ¬PartlyCovered e runs j → current[j]? = runs[j]?

namespace Swept

theorem zero_or_eq (h : Swept e runs k current) (j : NodeId) :
    current[j]? = some 0 ∨ current[j]? = runs[j]? := by
  by_cases hj : j < k
  · exact .inr (h.ahead j hj)
  by_cases hp : PartlyCovered e runs j
  · exact .inl (h.demoted j (Nat.le_of_not_lt hj) hp)
  · exact .inr (h.kept j (Nat.le_of_not_lt hj) hp)

theorem nonneg (h : Swept e runs k current)
    (hruns : ∀ (i : NodeId) (v : Int), runs[i]? = some v → 0 ≤ v) (i : NodeId) (v : Int)
    (hv : current[i]? = some v) : 0 ≤ v := by
  rcases h.zero_or_eq i with hz | hz
  · cases hv.symm.trans hz
    exact Int.le_refl 0
  · exact hruns i v (hz ▸ hv)

/-- What the sweep has passed is as it will be. -/
theorem agree {l : Nat} (h : Swept e runs k current) (h' : Swept e runs l next) {j : NodeId}
    (hk : k ≤ j) (hl : l ≤ j) : current[j]? = next[j]? := by
  by_cases hp : PartlyCovered e runs j
  · rw [h.demoted j hk hp, h'.demoted j hl hp]
  · rw [h.kept j hk hp, h'.kept j hl hp]

/-- At the end of the tree nothing has been swept. -/
theorem start (e : Evidence) (runs : Runs) : Swept e runs e.tree.size runs where
  size := rfl
  ahead _ _ := rfl
  demoted j hj hp := by
    cases hp with
    | misses hn | branch hn => exact absurd (Tree.size_of_node hn) (Nat.not_lt.mpr hj)
  kept _ _ _ := rfl

/-- As the branches of a construct have been swept before it, it misses one by now if it did so from
the beginning or if one is covered in part. -/
theorem misses_iff (h : Swept e runs (k + 1) current) (hl : e.tree.Linked)
    (hn : e.tree.nodes[k]? = some n) : Misses e current k n ↔
      Misses e runs k n ∨ ∃ c ∈ n.construct.outlets e.tree, PartlyCovered e runs c := by
  have hafter : ∀ c ∈ n.construct.outlets e.tree, k + 1 ≤ c := fun c hc => hl.lt_of_outlet hn hc
  constructor
  · rintro (⟨c, hc, hz⟩ | hm)
    · by_cases hp : PartlyCovered e runs c
      · exact .inr ⟨c, hc, hp⟩
      · exact .inl (.inl ⟨c, hc, h.kept c (hafter c hc) hp ▸ hz⟩)
    · exact .inl (.inr hm)
  · rintro ((⟨c, hc, hz⟩ | hm) | ⟨c, hc, hp⟩)
    · rcases h.zero_or_eq c with hz' | hz'
      · exact .inl ⟨c, hc, hz'⟩
      · exact .inl ⟨c, hc, hz'.trans hz⟩
    · exact .inr hm
    · exact .inl ⟨c, hc, h.demoted c (hafter c hc) hp⟩

/-- The sweep goes on by one node. -/
theorem step (h : Swept e runs (k + 1) current) (hl : e.tree.Linked)
    (hh : ∀ tracker, 0 ≤ e.counters.hits e.width tracker)
    (hruns : ∀ (i : NodeId) (v : Int), runs[i]? = some v → 0 ≤ v)
    (hk : k < e.tree.size) (hr : Revisits e e.answer k current next) : Swept e runs k next := by
  have hn : e.tree.nodes[k]? = some e.tree.nodes[k] := Array.getElem?_eq_getElem hk
  have hsame : current[k]? = runs[k]? := h.ahead k k.lt_succ_self
  -- what is left to say is whether node `k` itself is covered in part
  have hpassed : ∀ after : Runs, after.size = current.size →
      (∀ j, j ≠ k → after[j]? = current[j]?) →
      (PartlyCovered e runs k → after[k]? = some 0) →
      (¬PartlyCovered e runs k → after[k]? = runs[k]?) → Swept e runs k after := by
    intro after hsize hother hdemoted hkept
    refine ⟨hsize.trans h.size, fun j hj => ?_, fun j hj hp => ?_, fun j hj hp => ?_⟩
    · rw [hother j (Nat.ne_of_lt hj), h.ahead j (by omega)]
    · by_cases hjk : j = k
      · exact hjk ▸ hdemoted (hjk ▸ hp)
      · rw [hother j hjk, h.demoted j (by omega) hp]
    · by_cases hjk : j = k
      · exact hjk ▸ hkept (hjk ▸ hp)
      · rw [hother j hjk, h.kept j (by omega) hp]
  have hleast : ∀ {v bs}, current[k]? = some v → v ≠ 0 →
      (branches e current k).run e.answer = .ok bs →
      (bs.min? = some 0 ↔ PartlyCovered e runs k) := by
    intro v bs hv h0 hb
    rw [least_iff_misses hl hn hh (h.nonneg hruns) hb, h.misses_iff hl hn,
      partlyCovered_iff hl hn (hsame ▸ hv), and_iff_right h0]
  cases hr with
  | idle hz =>
    refine hpassed current rfl (fun _ _ => rfl) (fun _ => hz) fun _ => hsame
  | keep hv h0 hb hworst =>
    exact hpassed current rfl (fun _ _ => rfl) (fun hp => absurd ((hleast hv h0 hb).mpr hp) hworst)
      fun _ => hsame
  | demote hv h0 hb hworst =>
    refine hpassed _ size_enter (fun j hj => enter_of_ne hj) (fun _ => ?_)
      fun hp => absurd ((hleast hv h0 hb).mp hworst) hp
    exact enter_self (Array.getElem?_eq_some_iff.mp hv).1

end Swept

/-! ### Sweeping again -/

theorem at?_congr (h : current[c]? = next[c]?) : current.at? c = next.at? c := by
  rw [at?, at?, h]

theorem inSlot_congr {slot : Slot} {name : String}
    (h : ∀ c, slot = some c → current[c]? = next[c]?) :
    inSlot t current id slot name = inSlot t next id slot name := by
  cases slot with
  | none =>
    simp only [inSlot, Tree.required]
    cases t.label id <;> rfl
  | some c => exact at?_congr (h c rfl)

theorem inArm_congr {arm : NodeId} (h : ∀ c, t.armBody? arm = some c → current[c]? = next[c]?) :
    inArm t current arm = inArm t next arm := by
  unfold inArm
  cases hm : t.node arm with
  | error fault => rfl
  | ok m =>
    obtain ⟨con, _⟩ := m
    cases con with
    | arm patterns body =>
      refine inSlot_congr fun c hc => h c (armBody?_eq_some.mpr ?_)
      exact ⟨_, patterns, Tree.node_eq_ok.mp hm, by rw [hc]⟩
    | _ => rfl

theorem inArms_congr {arms : List NodeId}
    (h : ∀ c ∈ arms.filterMap t.armBody?, current[c]? = next[c]?) :
    inArms t current arms = inArms t next arms := by
  induction arms with
  | nil => rfl
  | cons arm arms ih =>
    simp only [List.mem_filterMap, List.mem_cons, exists_eq_or_imp] at h ih
    rw [inArms, inArms, inArm_congr fun c hc => h c (.inl hc), ih fun c hc => h c (.inr hc)]

/-- The branches of a construct depend on the runs of its outlets alone. -/
theorem branches_congr (hn : e.tree.nodes[id]? = some n)
    (h : ∀ c ∈ n.construct.outlets e.tree, current[c]? = next[c]?) :
    branches e current id = branches e next id := by
  have hread : ∀ g : Node → Derivation (List Int),
      ((liftM (e.tree.node id) : Derivation Node) >>= g) = g n := by
    intro g
    rw [Tree.node_eq_ok.mpr hn]
    rfl
  have hslot : ∀ (slot : Slot) (name : String),
      (∀ c, slot = some c → c ∈ n.construct.outlets e.tree) →
      inSlot e.tree current id slot name = inSlot e.tree next id slot name :=
    fun _ _ hmem => inSlot_congr fun c hc => h c (hmem c hc)
  simp only [branches, hread]
  cases hc : n.construct with
  | conditional style condition whenTrue whenFalse =>
    rw [hc] at hslot
    simp only [hslot whenTrue _ (by simp +contextual [Construct.outlets]),
      hslot whenFalse _ (by simp +contextual [Construct.outlets])]
  | dispatch subject arms otherwise =>
    rw [hc] at hslot h
    have harms : inArms e.tree current arms = inArms e.tree next arms :=
      inArms_congr fun c hmem => h c (List.mem_append_left _ hmem)
    simp only [harms, hslot otherwise _ (by simp +contextual [Construct.outlets])]
  | shortCircuit op left right =>
    rw [hc] at hslot
    simp only [hslot right _ (by simp +contextual [Construct.outlets])]
  | loop polarity test condition body =>
    rw [hc] at hslot
    simp only [hslot body _ (by simp +contextual [Construct.outlets])]
  | _ => rfl

/-- A node that was revisited is left as it is when it is revisited in the end. -/
theorem Revisits.again (h : Revisits e e.answer id current next) (hn : e.tree.nodes[id]? = some n)
    (hself : out[id]? = next[id]?)
    (hlater : ∀ c ∈ n.construct.outlets e.tree, current[c]? = out[c]?) :
    Revisits e e.answer id out out := by
  cases h with
  | idle hz => exact .idle (hself.trans hz)
  | keep hv h0 hb hworst =>
    rw [branches_congr hn hlater] at hb
    exact .keep (hself.trans hv) h0 hb hworst
  | demote hv =>
    exact .idle (hself.trans (enter_self (Array.getElem?_eq_some_iff.mp hv).1))

/-- The sweep comes through, and revisiting any node that it went over changes nothing. The
induction is on the nodes that are still ahead. -/
theorem Swept.run (hl : e.tree.Linked) (hh : ∀ tracker, 0 ≤ e.counters.hits e.width tracker)
    (hruns : ∀ (i : NodeId) (v : Int), runs[i]? = some v → 0 ≤ v) (hk : k ≤ e.tree.size)
    (h : Swept e runs k current)
    (hrun : (demoteAll e current (List.range k).reverse).run e.answer = .ok out) :
    Swept e runs 0 out ∧ ∀ j < k, Revisits e e.answer j out out := by
  induction k generalizing current with
  | zero =>
    cases hrun
    exact ⟨h, fun j hj => absurd hj (Nat.not_lt_zero j)⟩
  | succ k ih =>
    rw [List.range_succ, List.reverse_append, List.reverse_singleton, List.singleton_append] at hrun
    obtain ⟨next, hstep, hrest⟩ := run_demoteAll_cons.mp hrun
    have hnext := h.step hl hh hruns hk hstep
    obtain ⟨hout, hfixed⟩ := ih (Nat.le_of_succ_le hk) hnext hrest
    refine ⟨hout, fun j hj => ?_⟩
    rcases Nat.lt_succ_iff_lt_or_eq.mp hj with hj | rfl
    · exact hfixed j hj
    · have hn : e.tree.nodes[j]? = some e.tree.nodes[j] := Array.getElem?_eq_getElem hk
      refine hstep.again hn (hout.agree hnext (Nat.zero_le j) (Nat.le_refl j)) fun c hc => ?_
      exact h.agree hout (hl.lt_of_outlet hn hc) (Nat.zero_le c)

/-- Nodes that are all left as they are when they are revisited are left so by a sweep. -/
theorem run_demoteAll_fixed {ids : List NodeId} (h : ∀ id ∈ ids, Revisits e e.answer id out out) :
    (demoteAll e out ids).run e.answer = .ok out := by
  induction ids with
  | nil => rfl
  | cons id ids ih =>
    rw [List.forall_mem_cons] at h
    exact run_demoteAll_cons.mpr ⟨out, h.1, ih h.2⟩

/-- On a loaded tree without negative hits, and with runs of which none is negative, demotion
changes exactly the runs of the constructs that are covered in part, and sets these to zero; to
demote once more changes nothing. Lookups before and in between leave a sound memory sound. -/
theorem changed_iff_partlyCovered {t : Tree} (ht : t.Loaded) (counters : Counters) (width : Width)
    (hh : ∀ tracker, 0 ≤ counters.hits width tracker) (hruns : ∀ v ∈ runs, 0 ≤ v) {m : Memory}
    (hm : m.Sound ⟨t, counters, width⟩)
    (h : (Evidence.resume ⟨t, counters, width⟩ (demote ⟨t, counters, width⟩ runs) m).1 = .ok out) :
    let e : Evidence := ⟨t, counters, width⟩
    out.size = runs.size ∧ (∀ id : NodeId, out[id]? ≠ runs[id]? ↔ PartlyCovered e runs id) ∧
      (∀ id : NodeId, out[id]? ≠ runs[id]? → out[id]? = some 0) ∧
      ∀ m', m'.Sound e → (e.resume (demote e out) m').1 = .ok out := by
  intro e
  have hl : e.tree.Linked := ht.linked
  have hsweep : e.tree.preorder.reverse = (List.range e.tree.size).reverse :=
    congrArg List.reverse ht.preorder_eq
  rw [(resume_eq hl _ hm).1, demote, hsweep] at h
  have hnonneg : ∀ (i : NodeId) (v : Int), runs[i]? = some v → 0 ≤ v :=
    fun i v hv => hruns v (Array.mem_of_getElem? hv)
  obtain ⟨hout, hfixed⟩ := (Swept.start e runs).run hl hh hnonneg (Nat.le_refl _) h
  have hchanged : ∀ id : NodeId, out[id]? ≠ runs[id]? ↔ PartlyCovered e runs id := by
    intro id
    constructor
    · intro hne
      by_contra hp
      exact hne (hout.kept id (Nat.zero_le id) hp)
    · intro hp heq
      obtain ⟨v, hv, h0⟩ := hp.ne_zero
      rw [hout.demoted id (Nat.zero_le id) hp, hv, Option.some.injEq] at heq
      exact h0 heq.symm
  refine ⟨hout.size, hchanged, fun id hne => ?_, fun m' hm' => ?_⟩
  · exact hout.demoted id (Nat.zero_le id) ((hchanged id).mp hne)
  · rw [(resume_eq hl _ hm').1, demote, hsweep]
    refine run_demoteAll_fixed fun id hid => hfixed id ?_
    rwa [List.mem_reverse, List.mem_range] at hid

/-- In `Tree.choosing` the conjunction and the `case` miss a branch, and the `unless` that branches to
them is covered in part through either. -/
theorem changed_iff_partlyCovered_choosing :
    let e := Tree.choosingEvidence
    let raw : Runs := #[3, 3, 1, 1, 0, 2, 2, 2, 2, 1, 1, 1, 1, 0]
    let demoted : Runs := #[0, 3, 0, 1, 0, 0, 2, 2, 2, 1, 1, 1, 1, 0]
    (e.resume (demote e raw) e.memory).1 = .ok demoted ∧
      (∀ id : NodeId, demoted[id]? ≠ raw[id]? ↔ PartlyCovered e raw id) ∧
      PartlyCovered e raw 0 ∧ ¬PartlyCovered e raw 6 ∧
      (e.resume (demote e demoted) e.memory).1 = .ok demoted := by
  intro e raw demoted
  have hd : (e.resume (demote e raw) e.memory).1 = .ok demoted := by decide +kernel
  have hm := memory_sound e
  obtain ⟨-, hchanged, -, hagain⟩ := changed_iff_partlyCovered Tree.choosing_loaded e.counters
    e.width Tree.choosing_hits_nonneg (by decide +kernel) hm hd
  refine ⟨hd, hchanged, (hchanged 0).mp (by decide), mt (hchanged 6).mpr (by decide), ?_⟩
  exact hagain e.memory hm

end Runs

end BranchTally
