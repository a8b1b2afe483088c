import BranchTally.Proofs.Flow.Recall
import BranchTally.Proofs.Tree.Slots

/-! From a completion back to the entry. A completion that comes out rests on counts of the slots
of its node, which then came out as well, and these rest on the entry of the node. What the rules
say of all of them is read off here, one lemma to a construct. Nodes that control passes one after
the other form a chain, in which each is entered as often as the one before it completed. -/

namespace BranchTally

open BranchTally.Flow

/-- Control reaches the start of the construct whenever it enters it: no body is watched before, and
no exception chooses the construct. -/
def Construct.Direct : Construct → Prop
  | .rescue (some _) _ _ | .handler .. => False
  | _ => True

theorem Construct.Direct.of_kind {c : Construct} (hr : c.kind ≠ .rescue) (hh : c.kind ≠ .handler) :
    c.Direct := by
  cases c with
  | rescue => exact absurd rfl hr
  | handler => exact absurd rfl hh
  | _ => exact trivial

namespace Flow.Evidence

open Flow.Derivation BranchTally.Tree

variable {e : Evidence} {i c : NodeId} {n : Node} {u v w : Int} {ids : List NodeId}

/-! ### Counts that come out -/

/-- Some lookup of a count comes out as a number. On a linked tree all lookups of it do. -/
def Gives (e : Evidence) (q : Query) (v : Int) : Prop := ∃ earlier, e.lookup earlier q = .ok v

theorem gives_iff (h : e.tree.Linked) {q : Query} : e.Gives q v ↔ e.answer q = .ok v := by
  simp [Gives, lookup_eq h]

/-- Control entered a node and completed it so many times. -/
structure Flows (e : Evidence) (c : NodeId) (u v : Int) : Prop where
  entry : e.answer (.entry c) = .ok u
  completion : e.answer (.completion c) = .ok v

/-- The node is no handler arm, so that its entry bounds its completion. -/
def Bounded (e : Evidence) (c : NodeId) : Prop := ∀ m, e.tree.nodes[c]? = some m → m.kind ≠ .handler

theorem Bounded.of_kind (hn : e.tree.nodes[i]? = some n) (hk : n.kind ≠ .handler) :
    e.Bounded i := by
  intro m hm
  cases hn.symm.trans hm
  exact hk

section Rules

variable (h : e.tree.Linked)

include h

/-- A completion is what falls through the slots, and lies between zero and the entry. -/
theorem flows_of_completion (hk : e.Bounded i) (hv : e.answer (.completion i) = .ok v) :
    ∃ n u, e.tree.nodes[i]? = some n ∧ e.Flows i u v ∧ (e.fallThrough i n).run e.answer = .ok v ∧
      0 ≤ v ∧ v ≤ u := by
  have hrun := hv
  rw [answer_eq h] at hrun
  obtain ⟨n, u, hn, hfall, hu, h0, hle⟩ := run_completionRule.mp hrun
  rw [completionBound, if_neg (hk n hn)] at hu
  exact ⟨n, u, hn, ⟨hu, hv⟩, hfall, h0, hle⟩

/-- The entry of a node in a slot is what its parent makes of it. -/
theorem run_childEntry_of_entry (hn : e.tree.nodes[i]? = some n) (hc : c ∈ n.construct.present)
    (hu : e.answer (.entry c) = .ok u) : (e.childEntry i n c).run e.answer = .ok u := by
  rw [answer_eq h] at hu
  obtain ⟨m, hm, hu, -⟩ := run_entryRule.mp hu
  rw [entrance, h.parent_eq hn hc hm] at hu
  obtain ⟨n', hn', hu⟩ := run_bind_eq_ok.mp hu
  rw [run_lift, node_eq_ok, hn] at hn'
  cases hn'
  exact hu

/-- A node in a slot whose completion came out was entered from the slots before it. -/
theorem flows_of_slot (hn : e.tree.nodes[i]? = some n) (hc : c ∈ n.construct.present)
    (hk : e.Bounded c) (hv : e.answer (.completion c) = .ok v) :
    ∃ u, e.Flows c u v ∧ (e.childEntry i n c).run e.answer = .ok u := by
  obtain ⟨m, u, -, hf, -⟩ := flows_of_completion h hk hv
  exact ⟨u, hf, run_childEntry_of_entry h hn hc hf.entry⟩

theorem node_of_entry (hu : e.answer (.entry i) = .ok u) : i < e.tree.size := by
  rw [answer_eq h] at hu
  obtain ⟨n, hn, -⟩ := run_entryRule.mp hu
  exact size_of_node hn

omit h in
theorem arrival_of_direct (hd : n.construct.Direct) : e.arrival i n = count (.entry i) := by
  unfold arrival
  cases hc : n.construct with
  | rescue watched =>
    cases watched with
    | none => rfl
    | some w => exact absurd hd (by simp [hc, Construct.Direct])
  | handler => exact absurd hd (by simp [hc, Construct.Direct])
  | _ => rfl

/-- A node whose execution is its entry. -/
theorem entry_of_execution (hn : e.tree.nodes[i]? = some n)
    (ha : e.arrival i n = count (.entry i)) (hv : e.answer (.execution i) = .ok v) :
    e.answer (.entry i) = .ok v := by
  rw [answer_eq h] at hv
  obtain ⟨n', hn', hv, -⟩ := run_executionRule.mp hv
  rw [hn] at hn'
  cases hn'
  rwa [ha, run_count] at hv

theorem entry_nonneg (hu : e.answer (.entry i) = .ok u) : 0 ≤ u := by
  rw [answer_eq h] at hu
  obtain ⟨-, -, -, h0⟩ := run_entryRule.mp hu
  exact h0

theorem completion_nonneg (hv : e.answer (.completion i) = .ok v) : 0 ≤ v := by
  rw [answer_eq h] at hv
  obtain ⟨-, -, -, -, -, h0, -⟩ := run_completionRule.mp hv
  exact h0

/-- An execution that comes out is not negative, and the entry comes out and bounds it. -/
theorem bound_of_execution (hv : e.answer (.execution i) = .ok v) :
    0 ≤ v ∧ (e.Bounded i → ∃ u, e.answer (.entry i) = .ok u ∧ v ≤ u) := by
  rw [answer_eq h] at hv
  obtain ⟨n, hn, -, h0, hb⟩ := run_executionRule.mp hv
  exact ⟨h0, fun hk => hb (hk n hn)⟩

/-- Control completes a node no more often than it enters it. -/
theorem Flows.le (hf : e.Flows c u v) (hk : e.Bounded c) : 0 ≤ u ∧ 0 ≤ v ∧ v ≤ u := by
  obtain ⟨-, w, -, hw, -, h0, hle⟩ := flows_of_completion h hk hf.completion
  cases hf.entry.symm.trans hw.entry
  exact ⟨entry_nonneg h hf.entry, h0, hle⟩

theorem handlerEntry_nonneg (hv : e.answer (.handlerEntry i) = .ok v) : 0 ≤ v := by
  rw [answer_eq h] at hv
  obtain ⟨n, -, hv⟩ := run_bind_eq_ok.mp hv
  split at hv
  · cases hv
  obtain ⟨m, -, hv⟩ := run_bind_eq_ok.mp hv
  split at hv
  · exact entry_nonneg h (run_count _ _ ▸ hv)
  · obtain ⟨previous, -, hv⟩ := run_bind_eq_ok.mp hv
    split at hv
    · cases hv
    split at hv
    · simp only [run_bind_eq_ok, run_nonNegative] at hv
      obtain ⟨_, -, _, -, rfl, h0⟩ := hv
      exact h0
    · obtain ⟨x, -, hv⟩ := run_bind_eq_ok.mp hv
      split at hv
      · split at hv <;> simp only [run_bind_eq_ok, run_nonNegative] at hv
        all_goals
          obtain ⟨_, -, _, -, rfl, h0⟩ := hv
          exact h0
      · exact absurd ((run_lift _ _).symm.trans hv) refuse_ne_ok
  · exact absurd ((run_lift _ _).symm.trans hv) refuse_ne_ok

end Rules

/-! ### Counts that are not negative -/

section Hits

variable (hh : ∀ tracker, 0 ≤ e.counters.hits e.width tracker)

include hh

theorem reading_nonneg (n : Node) (role : Role) : 0 ≤ e.reading n role := by
  unfold reading
  cases n.tracker? role with
  | none => exact Int.le_refl 0
  | some tracker => exact hh tracker

variable (h : e.tree.Linked)

include h

/-- The branch without a node is checked, unless a tracker of its own tells it. -/
theorem implicitBranch_nonneg (hv : e.answer (.implicitBranch i) = .ok v) : 0 ≤ v := by
  rw [answer_eq h] at hv
  obtain ⟨n, -, hv⟩ := run_bind_eq_ok.mp hv
  split at hv
  next =>
    simp only [run_bind_eq_ok, run_nonNegative] at hv
    obtain ⟨_, -, _, -, _, -, _, -, rfl, h0⟩ := hv
    exact h0
  next =>
    split at hv
    · cases hv
      exact reading_nonneg hh n _
    · simp only [run_bind_eq_ok, run_nonNegative] at hv
      obtain ⟨_, -, _, -, rfl, h0⟩ := hv
      exact h0
  next =>
    simp only [run_bind_eq_ok] at hv
    obtain ⟨_, -, _, -, _, -, _, -, hv⟩ := hv
    split at hv <;> simp only [run_bind_eq_ok, run_nonNegative] at hv
    · obtain ⟨_, -, _, -, rfl, h0⟩ := hv
      exact h0
    · obtain ⟨_, -, rfl, h0⟩ := hv
      exact h0
  next => cases hv

/-- No count is negative unless a tracker is. -/
theorem answer_nonneg {q : Query} (hv : e.answer q = .ok v) : 0 ≤ v := by
  cases q with
  | entry id => exact entry_nonneg h hv
  | execution id => exact (bound_of_execution h hv).1
  | completion id => exact completion_nonneg h hv
  | handlerEntry arm => exact handlerEntry_nonneg h hv
  | implicitBranch id => exact implicitBranch_nonneg hh h hv

end Hits

/-! ### Chains -/

/-- Control passes the nodes one after the other. -/
inductive Chain (e : Evidence) : Int → List NodeId → Int → Prop where
  | nil {u : Int} : Chain e u [] u
  | snoc {u v w : Int} {ids : List NodeId} {c : NodeId} :
    Chain e u ids v → e.Flows c v w → Chain e u (ids ++ [c]) w

/-- The first of a row of nodes is entered so many times, and every other as often as the one before
it completed, if these counts come out. -/
structure Consecutive (e : Evidence) (u : Int) (ids : List NodeId) : Prop where
  first : ∀ {c : NodeId} {w : Int}, ids[0]? = some c → e.answer (.entry c) = .ok w → w = u
  next : ∀ {k : Nat} {b c : NodeId} {w : Int}, ids[k]? = some b → ids[k + 1]? = some c →
    e.answer (.entry c) = .ok w → e.answer (.completion b) = .ok w

theorem Consecutive.of_append {after : List NodeId} (h : e.Consecutive u (ids ++ after)) :
    e.Consecutive u ids := by
  have hget : ∀ {k : Nat} {c : NodeId}, ids[k]? = some c → (ids ++ after)[k]? = some c := by
    intro k c hk
    rw [List.getElem?_append_left (List.getElem?_eq_some_iff.mp hk).1, hk]
  exact ⟨fun h0 hw => h.first (hget h0) hw, fun hb hc hw => h.next (hget hb) (hget hc) hw⟩

/-- If the last of a row came out, control passed all of it. The induction goes from the last node
to the first, as the completion of a node tells the entry of the next. -/
theorem Consecutive.chain (h : e.tree.Linked) (hs : e.Consecutive u ids)
    (hk : ∀ c ∈ ids, e.Bounded c) (hv : (lastCompletion ids u).run e.answer = .ok v) :
    e.Chain u ids v := by
  induction ids using List.reverseRecOn generalizing v with
  | nil =>
    cases hv
    exact .nil
  | append_singleton ids c ih =>
    simp only [lastCompletion, List.getLast?_concat, run_count] at hv
    obtain ⟨-, w, -, hf, -⟩ := flows_of_completion h (hk c (by simp)) hv
    refine .snoc (ih hs.of_append (fun b hb => hk b (by simp [hb])) ?_) hf
    cases hl : ids.getLast? with
    | none =>
      rw [List.getLast?_eq_none_iff] at hl
      subst hl
      rw [hs.first rfl hf.entry]
      rfl
    | some b =>
      rw [List.getLast?_eq_getElem?] at hl
      have hlt := (List.getElem?_eq_some_iff.mp hl).1
      have hb : (ids ++ [c])[ids.length - 1]? = some b := by
        rw [List.getElem?_append_left hlt, hl]
      have hc : (ids ++ [c])[ids.length - 1 + 1]? = some c := by
        rw [Nat.sub_add_cancel (by omega)]
        simp
      simpa [lastCompletion, List.getLast?_eq_getElem?, hl] using hs.next hb hc hf.entry

/-- Control completes a row of nodes no more often than it enters it. -/
theorem Chain.le (h : e.tree.Linked) (hc : e.Chain u ids v) (hk : ∀ c ∈ ids, e.Bounded c) :
    u = v ∧ ids = [] ∨ 0 ≤ v ∧ v ≤ u := by
  induction hc with
  | nil => exact .inl ⟨rfl, rfl⟩
  | snoc hc hf ih =>
    obtain ⟨-, h0, hle⟩ := hf.le h (hk _ (by simp))
    rcases ih fun c hc => hk c (by simp [hc]) with ⟨rfl, -⟩ | ⟨-, hle'⟩
    · exact .inr ⟨h0, hle⟩
    · exact .inr ⟨h0, hle.trans hle'⟩

/-- What a call comes to after a row of nodes: a completion tracker tells, or else the last of
them. -/
def Finishes (e : Evidence) (n : Node) (ids : List NodeId) (u v : Int) : Prop :=
  (n.tracker? .completion).isSome ∧ v = e.reading n .completion ∨
    n.tracker? .completion = none ∧ (lastCompletion ids u).run e.answer = .ok v

theorem Finishes.of_untracked (hf : e.Finishes n ids u v) (ht : n.tracker? .completion = none) :
    (lastCompletion ids u).run e.answer = .ok v := by
  rcases hf with ⟨hk, -⟩ | ⟨-, hv⟩
  · simp [ht] at hk
  · exact hv

/-! ### Constructs -/

section Constructs

variable (h : e.tree.Linked) (hn : e.tree.nodes[i]? = some n) (hu : e.answer (.entry i) = .ok u)

include h hn hu

/-- Nodes that fill all slots of a node and are entered in sequence. -/
theorem consecutive_of_inSequence (hids : n.construct.present = ids)
    (hseq : ∀ c, e.childEntry i n c = e.inSequence i c) : e.Consecutive u ids := by
  have hrow : n.construct.present = [] ++ ids ++ [] := by simp [hids]
  have hrun : ∀ {c w}, c ∈ ids → e.answer (.entry c) = .ok w →
      (e.inSequence i c).run e.answer = .ok w := fun hc hw =>
    hseq _ ▸ run_childEntry_of_entry h hn (hids ▸ hc) hw
  constructor
  · intro c w h0 hw
    have hw := hrun (List.mem_of_getElem? h0) hw
    simp only [inSequence, run_bind, run_lift, h.previousSibling_first hn hrow h0] at hw
    exact Except.ok.inj (hw.symm.trans (by simpa [Except.bind] using hu))
  · intro k b c w hb hc hw
    have hw := hrun (List.mem_of_getElem? hc) hw
    simpa [inSequence, run_bind, h.previousSibling_next hn hrow hb hc, Except.bind] using hw

omit hu in
/-- The arguments of a safe navigation follow the check of the receiver. -/
theorem consecutive_arguments {r : NodeId} (hc : n.construct = .safeNavigation (some r) ids) :
    e.Consecutive (e.reading n .nonNil) ids := by
  have hrow : n.construct.present = [r] ++ ids ++ [] := by simp [hc, Construct.present]
  obtain ⟨hr, -⟩ := safeNavigation_nodup hc (present_nodup h hn)
  have hrun : ∀ {c w}, c ∈ ids → e.answer (.entry c) = .ok w →
      (e.childEntry i n c).run e.answer = .ok w := fun hc hw =>
    run_childEntry_of_entry h hn (by simp [hrow, hc]) hw
  constructor
  · intro c w h0 hw
    have hmem := List.mem_of_getElem? h0
    have hw := hrun hmem hw
    simp only [childEntry, hc, Option.some.injEq, if_neg (ne_of_mem_of_not_mem hmem hr), run_bind,
      run_lift, h.previousSibling_first hn hrow h0] at hw
    simpa [Except.bind, eq_comm] using hw
  · intro k b c w hb hk hw
    have hmem := List.mem_of_getElem? hk
    have hw := hrun hmem hw
    simp only [childEntry, hc, Option.some.injEq, if_neg (ne_of_mem_of_not_mem hmem hr), run_bind,
      run_lift, h.previousSibling_next hn hrow hb hk] at hw
    simpa [Except.bind, ne_of_mem_of_not_mem (List.mem_of_getElem? hb) hr] using hw

variable (hv : (e.fallThrough i n).run e.answer = .ok v)
  (hb : ∀ c ∈ n.construct.present, e.Bounded c)

include hv

theorem expression_flows {type : String} (hc : n.construct = .expression type ids) :
    e.Consecutive u ids ∧ e.Finishes n ids u v := by
  refine ⟨consecutive_of_inSequence h hn hu (by simp [hc, Construct.present])
    fun c => by simp [childEntry, hc], ?_⟩
  cases ht : n.tracker? .completion with
  | some tracker =>
    exact .inl ⟨by rw [ht]; rfl, by simpa [fallThrough, hc, ht, eq_comm] using hv⟩
  | none =>
    simp only [fallThrough, hc, ht, Option.isSome_none, Bool.false_eq_true, if_false,
      run_bind_eq_ok, run_count] at hv
    obtain ⟨x, hx, hv⟩ := hv
    cases hu.symm.trans (entry_of_execution h hn (by simp [arrival, hc]) hx)
    exact .inr ⟨ht, hv⟩

include hb

theorem sequence_flows {explicit : Bool} (hc : n.construct = .sequence explicit ids) :
    e.Chain u ids v := by
  have hs : e.Consecutive u ids := consecutive_of_inSequence h hn hu
    (by simp [hc, Construct.present]) fun c => by simp [childEntry, hc]
  refine hs.chain h (by simpa [hc, Construct.present] using hb) ?_
  simpa [fallThrough, hc, run_bind, hu, Except.bind] using hv

theorem conditional_flows {style : Style} {condition whenTrue whenFalse : Slot}
    (hc : n.construct = .conditional style condition whenTrue whenFalse) :
    ∃ c a b d x y, condition = some c ∧ whenTrue = some a ∧ whenFalse = some b ∧
      e.Flows c u d ∧ e.Flows a (e.reading n .truthy) x ∧
      e.Flows b (e.width.sub d (e.reading n .truthy)) y ∧ v = e.width.add x y := by
  simp only [fallThrough, hc, run_bind_eq_ok, run_lift, required_eq_ok, run_count, run_pure,
    Except.ok.injEq] at hv
  obtain ⟨a, rfl, x, hx, b, rfl, y, hy, hv⟩ := hv
  have ham : a ∈ n.construct.present := by simp [hc, Construct.present]
  have hbm : b ∈ n.construct.present := by simp [hc, Construct.present]
  obtain ⟨ua, hfa, hea⟩ := flows_of_slot h hn ham (hb a ham) hx
  obtain ⟨ub, hfb, heb⟩ := flows_of_slot h hn hbm (hb b hbm) hy
  have hd := present_nodup h hn
  cases condition with
  | none =>
    -- the false branch is entered by what the condition decided
    have hba : b ≠ a := by
      intro hba
      simp [hc, hba, Construct.present] at hd
    simp [childEntry, hc, hba, run_bind_eq_ok, required_eq_ok] at heb
  | some c =>
    obtain ⟨hca, hcb, hab⟩ := conditional_nodup hc hd
    have hcm : c ∈ n.construct.present := by simp [hc, Construct.present]
    have heb : ∃ d, e.answer (.completion c) = .ok d ∧
        e.width.sub d (e.reading n .truthy) = ub := by
      simpa [childEntry, hc, hcb.symm, hab.symm, run_bind_eq_ok, map_eq_ok] using heb
    obtain ⟨d, hdc, rfl⟩ := heb
    obtain ⟨uc, hfc, hec⟩ := flows_of_slot h hn hcm (hb c hcm) hdc
    have hec : u = uc := by simpa [childEntry, hc, hu] using hec
    have hea : e.reading n .truthy = ua := by simpa [childEntry, hc, hca.symm] using hea
    subst hec hea
    exact ⟨c, a, b, d, x, y, rfl, rfl, rfl, hfc, hfa, hfb, hv.symm⟩

theorem shortCircuit_flows {op : Connective} {left right : Slot}
    (hc : n.construct = .shortCircuit op left right) :
    ∃ l r d y x, left = some l ∧ right = some r ∧ e.Flows l u d ∧
      e.Flows r (e.reading n .conditional) y ∧ e.answer (.execution r) = .ok x ∧
      v = e.width.add y (e.width.sub d x) := by
  simp only [fallThrough, hc, run_bind_eq_ok, run_lift, required_eq_ok, run_count, run_pure,
    Except.ok.injEq] at hv
  obtain ⟨r, rfl, y, hy, z, hz, hv⟩ := hv
  rw [answer_eq h] at hz
  simp only [rule, implicitBranchRule, run_bind_eq_ok, run_lift, node_eq_ok, hn,
    Option.some.injEq, exists_eq_left', hc, required_eq_ok, run_count, run_nonNegative] at hz
  obtain ⟨l, rfl, d, hd, x, hx, rfl, -⟩ := hz
  have hlm : l ∈ n.construct.present := by simp [hc, Construct.present]
  have hrm : r ∈ n.construct.present := by simp [hc, Construct.present]
  obtain ⟨ul, hfl, hel⟩ := flows_of_slot h hn hlm (hb l hlm) hd
  obtain ⟨ur, hfr, her⟩ := flows_of_slot h hn hrm (hb r hrm) hy
  have hlr := shortCircuit_nodup hc (present_nodup h hn)
  have hel : u = ul := by simpa [childEntry, hc, hlr, hu] using hel
  have her : e.reading n .conditional = ur := by simpa [childEntry, hc] using her
  subst hel her
  exact ⟨l, r, d, y, x, rfl, rfl, hfl, hfr, hx, hv.symm⟩

theorem safeNavigation_flows {receiver : Slot} (hc : n.construct = .safeNavigation receiver ids)
    (ht : n.tracker? .nilReceiver = none) :
    ∃ r d x, receiver = some r ∧ e.Flows r u d ∧ e.Consecutive (e.reading n .nonNil) ids ∧
      e.Finishes n ids (e.reading n .nonNil) x ∧
      v = e.width.add (e.width.sub d (e.reading n .nonNil)) x := by
  have hmade : ∃ x z, e.Finishes n ids (e.reading n .nonNil) x ∧
      e.answer (.implicitBranch i) = .ok z ∧ v = e.width.add z x := by
    cases hk : n.tracker? .completion with
    | some tracker =>
      simp only [fallThrough, hc, hk, Option.isSome_some, if_true, pure_bind, run_bind_eq_ok,
        run_count, run_pure, Except.ok.injEq] at hv
      obtain ⟨z, hz, hv⟩ := hv
      exact ⟨_, z, .inl ⟨by rw [hk]; rfl, rfl⟩, hz, hv.symm⟩
    | none =>
      simp only [fallThrough, hc, hk, Option.isSome_none, Bool.false_eq_true, if_false,
        run_bind_eq_ok, run_count, run_pure, Except.ok.injEq] at hv
      obtain ⟨x, hx, z, hz, hv⟩ := hv
      exact ⟨x, z, .inr ⟨hk, hx⟩, hz, hv.symm⟩
  obtain ⟨x, z, hx, hz, rfl⟩ := hmade
  rw [answer_eq h] at hz
  simp only [rule, implicitBranchRule, run_bind_eq_ok, run_lift, node_eq_ok, hn,
    Option.some.injEq, exists_eq_left', hc, ht, Option.isSome_none, Bool.false_eq_true, if_false,
    required_eq_ok, run_count, run_nonNegative] at hz
  obtain ⟨r, rfl, d, hd, rfl, -⟩ := hz
  have hrm : r ∈ n.construct.present := by simp [hc, Construct.present]
  obtain ⟨ur, hfr, her⟩ := flows_of_slot h hn hrm (hb r hrm) hd
  have her : u = ur := by simpa [childEntry, hc, hu] using her
  subst her
  exact ⟨r, d, x, rfl, hfr, consecutive_arguments h hn hc, hx, rfl⟩

theorem loop_flows {polarity : Polarity} {test : LoopTest} {condition body : Slot}
    (hc : n.construct = .loop polarity test condition body) :
    ∃ c b d w x, condition = some c ∧ body = some b ∧ e.Flows b w x ∧
      (test = .before ∧ e.Flows c (e.width.add u x) d ∧ v = e.width.sub d w ∨
        test = .after ∧ e.Flows c x d ∧ v = e.width.sub d (e.width.sub w u)) := by
  have hz : e.answer (.implicitBranch i) = .ok v := by simpa [fallThrough, hc] using hv
  rw [answer_eq h] at hz
  simp only [rule, implicitBranchRule, run_bind_eq_ok, run_lift, node_eq_ok, hn,
    Option.some.injEq, exists_eq_left', hc, required_eq_ok, run_count] at hz
  obtain ⟨c, rfl, d, hd, b, rfl, w, hw, hz⟩ := hz
  have hcm : c ∈ n.construct.present := by simp [hc, Construct.present]
  obtain ⟨uc, hfc, hec⟩ := flows_of_slot h hn hcm (hb c hcm) hd
  have hcb := loop_nodup hc (present_nodup h hn)
  cases test with
  | before =>
    simp only [pure_bind, run_nonNegative] at hz
    have hec : ∃ x, e.answer (.completion b) = .ok x ∧ e.width.add u x = uc := by
      simpa [childEntry, hc, hcb, run_bind_eq_ok, map_eq_ok, hu] using hec
    obtain ⟨x, hx, rfl⟩ := hec
    exact ⟨c, b, d, w, x, rfl, rfl, ⟨hw, hx⟩, .inl ⟨rfl, hfc, hz.1.symm⟩⟩
  | after =>
    simp only [run_bind_eq_ok, run_count, run_pure, hu, Except.ok.injEq, exists_eq_left',
      run_nonNegative] at hz
    have hx : e.answer (.completion b) = .ok uc := by
      simpa [childEntry, hc, hcb, run_bind_eq_ok] using hec
    exact ⟨c, b, d, w, uc, rfl, rfl, ⟨hw, hx⟩, .inr ⟨rfl, hfc, hz.1.symm⟩⟩

end Constructs

end Flow.Evidence

end BranchTally
