import BranchTally.Proofs.Flow.Backward
import BranchTally.Proofs.Flow.Range
import BranchTally.Proofs.Flow.Sums
import BranchTally.Proofs.Tree.Order
import Mathlib.Tactic.IntervalCases

/-! Balance where nothing can exit abnormally. If no call tells its completions, and in every
dispatch the else branch is entered as often as no arm matched, then a node completes as often as
it is entered. The arms of a dispatch telescope, each entered by what the one before it did not
match; and the handlers of a rescue complete never, since the watched body alone completes as often
as the rescue is entered, and together they do so no more often. -/

namespace BranchTally

open BranchTally.Flow

/-- The clauses that a construct tries one after the other. -/
def Construct.clauses : Construct → List NodeId
  | .dispatch _ arms _ => arms
  | .rescue _ handlers _ => handlers
  | _ => []

/-- Arms stand only in a dispatch and handlers only in a rescue. -/
structure Tree.Housed (t : Tree) : Prop where
  arm : ∀ {i : NodeId} {n : Node}, t.nodes[i]? = some n → n.kind = .arm →
    ∃ (p : NodeId) (m : Node) (subject otherwise : Slot) (arms : List NodeId),
      n.parent = some p ∧ t.nodes[p]? = some m ∧
        m.construct = .dispatch subject arms otherwise ∧ i ∈ arms
  handler : ∀ {i : NodeId} {n : Node}, t.nodes[i]? = some n → n.kind = .handler →
    ∃ (p : NodeId) (m : Node) (watched otherwise : Slot) (handlers : List NodeId),
      n.parent = some p ∧ t.nodes[p]? = some m ∧
        m.construct = .rescue watched handlers otherwise ∧ i ∈ handlers

/-- No node binds a tracker to the completions of a call or to the calls that it skips. -/
def Tree.Unbroken (t : Tree) : Prop := ∀ {i : NodeId} {n : Node}, t.nodes[i]? = some n →
  n.tracker? .completion = none ∧ n.tracker? .nilReceiver = none

namespace Flow.Evidence

open Flow.Derivation BranchTally.Tree

variable {e : Evidence} {i j c : NodeId} {n m : Node} {u v w x : Int} {ids arms : List NodeId}
  {subject otherwise : Slot}

/-- The count of those who come past the first slot of a node, which may be empty: past the subject
of a dispatch to its arms, or past the exception list of a handler. -/
def reaching (i : NodeId) : Slot → Query
  | some s => .completion s
  | none => .entry i

/-- How often a dispatch comes past all of its arms: those who tried the last arm and did not enter
its body, or all who came to the arms if there are none. -/
def Unmatched (e : Evidence) (i : NodeId) (subject : Slot) (arms : List NodeId) (x : Int) : Prop :=
  match arms.getLast? with
  | some a => ∃ (m : Node) (patterns : List NodeId) (body : NodeId) (tried matched : Int),
    e.tree.nodes[a]? = some m ∧ m.construct = .arm patterns (some body) ∧
      e.Gives (.entry a) tried ∧ e.Gives (.entry body) matched ∧ x = tried - matched
  | none => e.Gives (reaching i subject) x

/-- A node is left as often as it is entered, and its start is reached as often. -/
structure Balanced (e : Evidence) (i : NodeId) : Prop where
  completion : ∀ {v : Int}, e.answer (.completion i) = .ok v → e.answer (.entry i) = .ok v
  execution : ∀ {v : Int}, e.answer (.execution i) = .ok v → e.answer (.entry i) = .ok v

theorem Flows.eq (hf : e.Flows c u v) (hb : e.Balanced c) : u = v :=
  Except.ok.inj (hf.entry.symm.trans (hb.completion hf.completion))

theorem Chain.eq (hc : e.Chain u ids v) (hb : ∀ c ∈ ids, e.Balanced c) : u = v := by
  induction hc with
  | nil => rfl
  | snoc hch hf ih =>
    rw [ih fun c hc => hb c (List.mem_append_left _ hc)]
    exact hf.eq (hb _ (by simp))

/-! ### Completions in a row -/

theorem run_addCompletions_concat {f : Query → Except Fault Int} {total : Int} :
    (e.addCompletions total (ids ++ [c])).run f = .ok v ↔
      ∃ x y, (e.addCompletions total ids).run f = .ok x ∧ f (.completion c) = .ok y ∧
        v = e.width.add x y := by
  induction ids generalizing total with
  | nil =>
    simp only [List.nil_append, addCompletions, run_bind_eq_ok, run_count, run, Except.ok.injEq]
    constructor
    · rintro ⟨y, hy, rfl⟩
      exact ⟨total, y, rfl, hy, rfl⟩
    · rintro ⟨x, y, rfl, hy, rfl⟩
      exact ⟨y, hy, rfl⟩
  | cons b ids ih =>
    simp only [List.cons_append, addCompletions, run_bind_eq_ok, run_count, ih]
    constructor
    · rintro ⟨z, hz, x, y, hx, hy, rfl⟩
      exact ⟨x, y, ⟨z, hz, hx⟩, hy, rfl⟩
    · rintro ⟨x, y, ⟨z, hz, hx⟩, hy, rfl⟩
      exact ⟨z, hz, x, y, hx, hy, rfl⟩

theorem le_addCompletions (hw : e.width = .unbounded) {f : Query → Except Fault Int}
    (hf : ∀ {c y}, f (.completion c) = .ok y → 0 ≤ y) {total : Int}
    (hv : (e.addCompletions total ids).run f = .ok v) : total ≤ v := by
  induction ids using List.reverseRecOn generalizing v with
  | nil =>
    cases hv
    exact Int.le_refl _
  | append_singleton ids c ih =>
    obtain ⟨x, y, hx, hy, rfl⟩ := run_addCompletions_concat.mp hv
    have := ih hx
    have := hf hy
    rw [hw, Width.add_unbounded]
    omega

/-! ### Slots -/

/-- The node is not one of the clauses that another tries. -/
def Free (e : Evidence) (c : NodeId) : Prop :=
  ∀ m, e.tree.nodes[c]? = some m → m.kind ≠ .arm ∧ m.kind ≠ .handler

theorem Free.bounded (hf : e.Free c) : e.Bounded c := fun m hm => (hf m hm).2

/-- Only clauses are arms or handlers. -/
theorem free_of_slot (h : e.tree.Linked) (hh : e.tree.Housed) (hn : e.tree.nodes[i]? = some n)
    (hc : c ∈ n.construct.present) (hcl : c ∉ n.construct.clauses) : e.Free c := by
  intro m hm
  have hp := h.parent_eq hn hc hm
  constructor
  · intro hk
    obtain ⟨p, n', subject, otherwise, arms, hp', hn', hcon, ha⟩ := hh.arm hm hk
    cases hp.symm.trans hp'
    cases hn.symm.trans hn'
    exact hcl (by rw [hcon]; exact ha)
  · intro hk
    obtain ⟨p, n', watched, otherwise, handlers, hp', hn', hcon, ha⟩ := hh.handler hm hk
    cases hp.symm.trans hp'
    cases hn.symm.trans hn'
    exact hcl (by rw [hcon]; exact ha)

/-! ### Constructs without clauses -/

section Plain

variable (h : e.tree.Linked) (hn : e.tree.nodes[i]? = some n) (hu : e.answer (.entry i) = .ok u)
  (hv : (e.fallThrough i n).run e.answer = .ok v)
  (hslots : ∀ c ∈ n.construct.present, e.Bounded c ∧ e.Balanced c)

include h hn hu hv hslots

theorem expression_balanced {type : String} (hc : n.construct = .expression type ids)
    (hk : n.tracker? .completion = none) : u = v := by
  rw [hc] at hslots
  obtain ⟨hrow, hfin⟩ := expression_flows h hn hu hv hc
  have hchain := hrow.chain h (fun c hc => (hslots c hc).1) (hfin.of_untracked hk)
  exact hchain.eq fun c hc => (hslots c hc).2

theorem sequence_balanced {explicit : Bool} (hc : n.construct = .sequence explicit ids) :
    u = v := by
  have hchain := sequence_flows h hn hu hv (fun c hc => (hslots c hc).1) hc
  rw [hc] at hslots
  exact hchain.eq fun c hc => (hslots c hc).2

theorem safeNavigation_balanced (hw : e.width = .unbounded) {receiver : Slot}
    (hc : n.construct = .safeNavigation receiver ids) (hk : n.tracker? .completion = none)
    (ht : n.tracker? .nilReceiver = none) : u = v := by
  obtain ⟨r, d, x, rfl, hfr, hrow, hfin, hsum⟩ :=
    safeNavigation_flows h hn hu hv (fun c hc => (hslots c hc).1) hc ht
  simp only [hc, Construct.present, Option.toList_some, List.cons_append, List.nil_append,
    List.forall_mem_cons] at hslots
  have hreceived := hfr.eq hslots.1.2
  have hchain := hrow.chain h (fun c hc => (hslots.2 c hc).1) (hfin.of_untracked hk)
  have hmade := hchain.eq fun c hc => (hslots.2 c hc).2
  simp only [hw, Width.add_unbounded, Width.sub_unbounded] at hsum
  omega

theorem conditional_balanced (hw : e.width = .unbounded) {style : Style}
    {condition whenTrue whenFalse : Slot}
    (hc : n.construct = .conditional style condition whenTrue whenFalse) : u = v := by
  obtain ⟨c, a, b, d, x, y, rfl, rfl, rfl, hfc, hfa, hfb, hsum⟩ :=
    conditional_flows h hn hu hv (fun c hc => (hslots c hc).1) hc
  have hdecided := hfc.eq (hslots c (by simp [hc, Construct.present])).2
  have hheld := hfa.eq (hslots a (by simp [hc, Construct.present])).2
  have hfailed := hfb.eq (hslots b (by simp [hc, Construct.present])).2
  simp only [hw, Width.add_unbounded, Width.sub_unbounded] at hfailed hsum
  omega

theorem shortCircuit_balanced (hw : e.width = .unbounded) {op : Connective} {left right : Slot}
    (hc : n.construct = .shortCircuit op left right) : u = v := by
  obtain ⟨l, r, d, y, x, rfl, rfl, hfl, hfr, hx, hsum⟩ :=
    shortCircuit_flows h hn hu hv (fun c hc => (hslots c hc).1) hc
  have hbr := (hslots r (by simp [hc, Construct.present])).2
  have hdecided := hfl.eq (hslots l (by simp [hc, Construct.present])).2
  have hevaluated := hfr.eq hbr
  have hreached := Except.ok.inj (hfr.entry.symm.trans (hbr.execution hx))
  simp only [hw, Width.add_unbounded, Width.sub_unbounded] at hsum
  omega

theorem loop_balanced (hw : e.width = .unbounded) {polarity : Polarity} {test : LoopTest}
    {condition body : Slot} (hc : n.construct = .loop polarity test condition body) : u = v := by
  obtain ⟨c, b, d, w, x, rfl, rfl, hfb, hfc⟩ :=
    loop_flows h hn hu hv (fun c hc => (hslots c hc).1) hc
  have hbc := (hslots c (by simp [hc, Construct.present])).2
  have hpassed := hfb.eq (hslots b (by simp [hc, Construct.present])).2
  simp only [hw, Width.add_unbounded, Width.sub_unbounded] at hfc
  rcases hfc with ⟨-, hfc, hsum⟩ | ⟨-, hfc, hsum⟩
  all_goals
    have htested := hfc.eq hbc
    omega

end Plain

/-! ### The arms of a dispatch -/

section Step

variable (h : e.tree.Linked) (hn : e.tree.nodes[i]? = some n)

include h hn

/-- An arm is tried by what no arm before it matched. -/
theorem unmatched_of_entry (hc : n.construct = .dispatch subject arms otherwise)
    {before after : List NodeId} {a : NodeId} (harms : arms = before ++ a :: after)
    (hu : e.answer (.entry a) = .ok u) : e.Unmatched i subject before u := by
  have ha : a ∈ arms := by simp [harms]
  have hrun := run_childEntry_of_entry h hn (by simp [hc, ha, Construct.present]) hu
  have hrow : n.construct.present = subject.toList ++ arms ++ otherwise.toList := by rw [hc]; rfl
  obtain ⟨hslots, -⟩ := dispatch_nodup hc (present_nodup h hn)
  simp only [childEntry, hc, if_neg (hslots a ha).1, if_neg (hslots a ha).2] at hrun
  rcases List.eq_nil_or_concat before with rfl | ⟨before, b, rfl⟩
  · -- the first arm follows the subject, if there is one
    have hprev := h.previousSibling_first hn hrow (c := a) (by simp [harms])
    simp only [run_bind, run_lift, hprev] at hrun
    cases subject with
    | none => simpa [Unmatched, reaching, gives_iff h, Except.bind] using hrun
    | some s => simpa [Unmatched, reaching, gives_iff h, Except.bind] using hrun
  · have hb : b ∈ arms := by simp [harms]
    have hprev := h.previousSibling_next hn hrow (k := before.length) (b := b) (c := a)
      (by simp [harms]) (by simp [harms])
    obtain ⟨m, hm, hkind⟩ := h.arm_kind hn hc hb
    simp only [run_bind, run_lift, hprev, Except.bind, if_neg (hslots b hb).1,
      node_eq_ok.mpr hm] at hrun
    unfold Node.kind at hkind
    cases hcon : m.construct with
    | arm patterns body =>
      simp only [hcon, run_bind_eq_ok, run_count, run_lift, required_eq_ok, run_pure,
        Except.ok.injEq] at hrun
      obtain ⟨tried, ht, body, rfl, matched, hmt, rfl⟩ := hrun
      simp only [Unmatched, List.concat_eq_append, List.getLast?_concat]
      exact ⟨m, patterns, body, tried, matched, hm, hcon, (gives_iff h).mpr ht,
        (gives_iff h).mpr hmt, (keeps_answer ht).sub_eq (keeps_answer hmt) (entry_nonneg h ht)
          (entry_nonneg h hmt)⟩
    | _ => simp [hcon, Construct.kind] at hkind

variable (hh : e.tree.Housed)
  (hbelow : ∀ j, i < j → j < e.tree.size → e.Free j → e.Balanced j)

include hh hbelow

omit hn in
theorem balanced_of_slot (hp : i ≤ j) (hm : e.tree.nodes[j]? = some m)
    (hc : c ∈ m.construct.present) (hcl : c ∉ m.construct.clauses) :
    e.Free c ∧ e.Balanced c := by
  have hf := free_of_slot h hh hm hc hcl
  obtain ⟨hlt, hsize⟩ := h.lt_of_present hm hc
  exact ⟨hf, hbelow c (Nat.lt_of_le_of_lt hp hlt) hsize hf⟩

/-- A slot that holds no clause was entered as often as it completed. -/
theorem run_childEntry_balanced (hc : c ∈ n.construct.present) (hcl : c ∉ n.construct.clauses)
    (hx : e.answer (.completion c) = .ok x) : (e.childEntry i n c).run e.answer = .ok x := by
  obtain ⟨-, hb⟩ := balanced_of_slot h hh hbelow (Nat.le_refl i) hn hc hcl
  exact run_childEntry_of_entry h hn hc (hb.completion hx)

/-- What an arm completes it matched. -/
theorem matched_of_completion (hc : n.construct = .dispatch subject arms otherwise)
    {a body : NodeId} {patterns : List NodeId} (ha : a ∈ arms) (hm : e.tree.nodes[a]? = some m)
    (hcon : m.construct = .arm patterns (some body)) (hv : e.answer (.completion a) = .ok v) :
    e.answer (.entry body) = .ok v := by
  have hb : e.Bounded a := .of_kind hm (by simp [Node.kind, hcon, Construct.kind])
  obtain ⟨m', u, hm', -, hfall, -⟩ := flows_of_completion h hb hv
  cases hm.symm.trans hm'
  have hlt := (h.lt_of_present hn (c := a) (by simp [hc, ha, Construct.present])).1
  obtain ⟨-, hbal⟩ := balanced_of_slot h hh hbelow (Nat.le_of_lt hlt) hm (c := body)
    (by simp [hcon, Construct.present]) (by simp [hcon, Construct.clauses])
  apply hbal.completion
  simpa [fallThrough, hcon, run_bind_eq_ok] using hfall

/-- The arms complete as often as they match, so that with those whom no arm matched they make up
those who came to the first arm. -/
theorem addCompletions_arms (hw : e.width = .unbounded)
    (hc : n.construct = .dispatch subject arms otherwise)
    {before after : List NodeId} (harms : arms = before ++ after)
    (hw₀ : e.Unmatched i subject [] w) (hx : e.Unmatched i subject before x)
    (hv : (e.addCompletions u before).run e.answer = .ok v) : v = u + (w - x) := by
  induction before using List.reverseRecOn generalizing after x v with
  | nil =>
    cases hv
    simp only [Unmatched, List.getLast?_nil, gives_iff h] at hw₀ hx
    have := Except.ok.inj (hw₀.symm.trans hx)
    omega
  | append_singleton before a ih =>
    rw [List.append_assoc] at harms
    obtain ⟨y, z, hy, hz, rfl⟩ := run_addCompletions_concat.mp hv
    simp only [Unmatched, List.getLast?_concat, gives_iff h] at hx
    obtain ⟨m, patterns, body, tried, matched, hm, hcon, ht, hmt, rfl⟩ := hx
    have hmatched := matched_of_completion h hn hh hbelow hc (by simp [harms]) hm hcon hz
    cases hmt.symm.trans hmatched
    have := ih harms (unmatched_of_entry h hn hc harms ht) hy
    rw [hw, Width.add_unbounded]
    omega

/-! ### Constructs with clauses -/

section Constructs

variable (hu : e.answer (.entry i) = .ok u)

include hu

/-- All who enter a dispatch come to its arms. -/
theorem unmatched_nil (hc : n.construct = .dispatch subject arms otherwise)
    (hs : e.Unmatched i subject [] w) : w = u := by
  simp only [Unmatched, List.getLast?_nil, gives_iff h] at hs
  cases subject with
  | none => exact Except.ok.inj (hs.symm.trans hu)
  | some s =>
    obtain ⟨harms, -⟩ := dispatch_nodup hc (present_nodup h hn)
    have hrun := run_childEntry_balanced h hn hh hbelow (c := s) (by simp [hc, Construct.present])
      (by simpa [hc, Construct.clauses] using fun hs => (harms s hs).1 rfl) hs
    simpa [childEntry, hc, hu, eq_comm] using hrun

/-- The watched body of a rescue completes as often as the rescue is entered. -/
theorem watched_balanced {watched : NodeId} {handlers : List NodeId}
    (hc : n.construct = .rescue (some watched) handlers otherwise)
    (hx : e.answer (.completion watched) = .ok x) : u = x := by
  obtain ⟨hhandlers, -⟩ := rescue_nodup hc (present_nodup h hn)
  have hrun := run_childEntry_balanced h hn hh hbelow (by simp [hc, Construct.present])
    (by simpa [hc, Construct.clauses] using fun hx => hhandlers watched hx rfl) hx
  simpa [childEntry, hc, hu] using hrun

theorem execution_balanced (hk : n.kind ≠ .handler) (hx : e.answer (.execution i) = .ok x) :
    u = x := by
  cases hc : n.construct with
  | rescue watched handlers otherwise =>
    cases watched with
    | none =>
      exact Except.ok.inj (hu.symm.trans (entry_of_execution h hn (by simp [arrival, hc]) hx))
    | some w =>
      rw [answer_eq h] at hx
      obtain ⟨n', hn', hx, -⟩ := run_executionRule.mp hx
      cases hn.symm.trans hn'
      exact watched_balanced h hn hh hbelow hu hc (by simpa [arrival, hc] using hx)
  | handler exceptions assignment body => exact absurd (by simp [Node.kind, hc, Construct.kind]) hk
  | _ => exact Except.ok.inj (hu.symm.trans (entry_of_execution h hn (by simp [arrival, hc]) hx))

variable (hv : (e.fallThrough i n).run e.answer = .ok v)

include hv

theorem dispatch_balanced (hw : e.width = .unbounded)
    (hc : n.construct = .dispatch subject arms otherwise)
    (hd : e.Unmatched i subject arms (e.reading n .elseEntered)) : u = v := by
  simp only [fallThrough, hc, run_bind_eq_ok, run_lift, required_eq_ok, run_count] at hv
  obtain ⟨o, rfl, x, hx, hv⟩ := hv
  obtain ⟨harms, ho⟩ := dispatch_nodup hc (present_nodup h hn)
  have hrun := run_childEntry_balanced h hn hh hbelow (c := o) (by simp [hc, Construct.present])
    (by simpa [hc, Construct.clauses] using fun ho => (harms o ho).2 rfl) hx
  have hxe : e.reading n .elseEntered = x := by simpa [childEntry, hc, ho o rfl] using hrun
  obtain ⟨w, hstart⟩ : ∃ w, e.Unmatched i subject [] w := by
    cases arms with
    | nil => exact ⟨_, hd⟩
    | cons a arms =>
      simp only [addCompletions, run_bind_eq_ok, run_count] at hv
      obtain ⟨y, hy, -⟩ := hv
      obtain ⟨m, hm, hk⟩ := h.arm_kind hn hc (List.mem_cons_self ..)
      obtain ⟨-, w, -, hf, -⟩ := flows_of_completion h (.of_kind hm (by simp [hk])) hy
      exact ⟨w, unmatched_of_entry h hn hc (List.nil_append _).symm hf.entry⟩
  cases unmatched_nil h hn hh hbelow hu hc hstart
  have := addCompletions_arms h hn hh hbelow hw hc (List.append_nil arms).symm hstart (hxe ▸ hd) hv
  omega

/-- The handlers of a rescue never complete, since it completes no more often than it is entered and
the watched body and the else clause alone complete as often. -/
theorem rescue_balanced (hw : e.width = .unbounded) {watched : Slot} {handlers : List NodeId}
    (hc : n.construct = .rescue watched handlers otherwise) (hle : v ≤ u) : u = v := by
  cases watched with
  | none => simpa [fallThrough, hc, hu] using hv
  | some b =>
    simp only [fallThrough, hc, run_bind_eq_ok, run_count] at hv
    obtain ⟨x, hx, hv⟩ := hv
    have hux : u = x := by
      cases otherwise with
      | none => exact watched_balanced h hn hh hbelow hu hc hx
      | some o =>
        -- the else clause is entered as often as the watched body completes
        obtain ⟨-, -, hob, ho⟩ := rescue_nodup hc (present_nodup h hn)
        have hrun := run_childEntry_balanced h hn hh hbelow (c := o)
          (by simp [hc, Construct.present])
          (by simpa [hc, Construct.clauses] using fun hx => ho o hx rfl) hx
        apply execution_balanced h hn hh hbelow hu (by simp [Node.kind, hc, Construct.kind])
        simpa [childEntry, hc, hob o rfl] using hrun
    have := le_addCompletions hw (completion_nonneg h) hv
    omega

theorem ensure_balanced {body ensured : Slot} (hc : n.construct = .ensure body ensured) :
    u = v := by
  have hslot : ∀ b ∈ n.construct.present, e.answer (.completion b) = .ok v →
      (e.childEntry i n b).run e.answer = .ok v := fun b hbm hx =>
    run_childEntry_balanced h hn hh hbelow hbm (by simp [hc, Construct.clauses]) hx
  cases body with
  | some b =>
    have hrun := hslot b (by simp [hc, Construct.present]) (by simpa [fallThrough, hc] using hv)
    simpa [childEntry, hc, ensure_nodup hc (present_nodup h hn), hu] using hrun
  | none =>
    cases ensured with
    | some b =>
      have hrun := hslot b (by simp [hc, Construct.present]) (by simpa [fallThrough, hc] using hv)
      simpa [childEntry, hc, hu] using hrun
    | none => simpa [fallThrough, hc, hu] using hv

/-- Whatever a node is, it completes as often as it is entered if all later nodes do. -/
theorem completion_balanced (hw : e.width = .unbounded) (hq : e.tree.Unbroken) (hf : e.Free i)
    (hd : ∀ {subject arms otherwise}, n.construct = .dispatch subject arms otherwise →
      e.Unmatched i subject arms (e.reading n .elseEntered)) (hle : v ≤ u) : u = v := by
  obtain ⟨hk, hn'⟩ := hq hn
  have hplain : n.construct.clauses = [] →
      ∀ c ∈ n.construct.present, e.Bounded c ∧ e.Balanced c := by
    intro hcl c hc
    obtain ⟨hf, hb⟩ := balanced_of_slot h hh hbelow (Nat.le_refl i) hn hc (by simp [hcl])
    exact ⟨hf.bounded, hb⟩
  cases hc : n.construct with
  | expression type operands =>
    exact expression_balanced h hn hu hv (hplain (by rw [hc]; rfl)) hc hk
  | sequence explicit statements =>
    exact sequence_balanced h hn hu hv (hplain (by rw [hc]; rfl)) hc
  | emptyBody => simpa [fallThrough, hc, hu] using hv
  | conditional style condition whenTrue whenFalse =>
    exact conditional_balanced h hn hu hv (hplain (by rw [hc]; rfl)) hw hc
  | dispatch subject arms otherwise => exact dispatch_balanced h hn hh hbelow hu hv hw hc (hd hc)
  | arm patterns body => exact absurd (by rw [Node.kind, hc]; rfl) (hf n hn).1
  | shortCircuit op left right =>
    exact shortCircuit_balanced h hn hu hv (hplain (by rw [hc]; rfl)) hw hc
  | safeNavigation receiver arguments =>
    exact safeNavigation_balanced h hn hu hv (hplain (by rw [hc]; rfl)) hw hc hk hn'
  | loop polarity test condition body =>
    exact loop_balanced h hn hu hv (hplain (by rw [hc]; rfl)) hw hc
  | rescue watched handlers otherwise => exact rescue_balanced h hn hh hbelow hu hv hw hc hle
  | handler exceptions assignment body => exact absurd (by rw [Node.kind, hc]; rfl) (hf n hn).2
  | ensure body ensured => exact ensure_balanced h hn hh hbelow hu hv hc

end Constructs

end Step

/-- On a loaded tree in which nothing can exit abnormally, a node that is no arm and no handler
completes as often as it is entered. -/
theorem entry_of_completion {t : Tree} (hl : t.Loaded) (hh : t.Housed) (hq : t.Unbroken)
    (counters : Counters)
    (hd : ∀ {i : NodeId} {n : Node} {subject otherwise : Slot} {arms : List NodeId},
      t.nodes[i]? = some n → n.construct = .dispatch subject arms otherwise →
      (whole t counters).Unmatched i subject arms ((whole t counters).reading n .elseEntered))
    {i : NodeId} {n : Node} {v : Int} (hn : t.nodes[i]? = some n) (ha : n.kind ≠ .arm)
    (hk : n.kind ≠ .handler) (hv : (whole t counters).Gives (.completion i) v) :
    ∀ later, (whole t counters).lookup later (.entry i) = .ok v := by
  let e := whole t counters
  have h : e.tree.Linked := hl.linked
  have hbalanced : ∀ {i : Nat}, i < t.size → e.Free i → e.Balanced i := by
    intro i hi
    apply later_induction (P := fun i => e.Free i → e.Balanced i) _ hi
    intro i hi ih hf
    constructor
    case completion =>
      intro v hv
      obtain ⟨n, u, hn, hflow, hfall, -, hle⟩ := flows_of_completion h hf.bounded hv
      rw [hflow.entry, completion_balanced h hn hh ih hflow.entry hfall rfl hq hf (hd hn) hle]
    case execution =>
      intro v hv
      have hrun := hv
      rw [answer_eq h] at hrun
      obtain ⟨n, hn, -, -, hbound⟩ := run_executionRule.mp hrun
      obtain ⟨u, hu, -⟩ := hbound (hf n hn).2
      rw [hu, execution_balanced h hn hh ih hu (hf n hn).2 hv]
  have hfree : e.Free i := by
    intro m hm
    cases hn.symm.trans hm
    exact ⟨ha, hk⟩
  intro later
  rw [lookup_eq (e := whole t counters) h]
  exact (hbalanced (size_of_node hn) hfree).completion ((gives_iff h).mp hv)

end Flow.Evidence

/-- Items that are told apart by two arms, the second with a rescue and its else clause, before a
loop; all in the body of an ensure. -/
def Dump.sorting : Dump :=
  .node "ensure" 1 none [("entry", "1")]
    [.node "begin" 1 none []
      [.node "case" 1 none [("else_entered", "2")]
        [.node "lvar" 1 none [] [],
          .node "when" 2 none [("entered_body", "3")]
            [.node "const" 2 none [] [], .node "send" 2 none [] []],
          .node "when" 3 none [("entered_body", "4")]
            [.node "const" 3 none [] [],
              .node "rescue" 3 none []
                [.node "send" 3 none [] [],
                  .node "resbody" 4 none [("entered_body", "5")]
                    [.node "const" 4 none [] [], .node "_" 4 none [] [], .node "send" 4 none [] []],
                  .node "send" 5 none [] []]],
          .node "empty" 6 none [] []],
        .node "while" 7 none [("body", "6")]
          [.node "send" 7 none [] [], .node "send" 7 none [] []]],
      .node "send" 8 none [] []]

def Tree.sorting : Tree :=
  let plain (type : String) (parent index : Nat) : Node :=
    ⟨.expression type [], none, some parent, index, [], [], []⟩
  ⟨#[⟨.ensure (some 1) (some 19), none, none, 0, [1, 19], [(.entry, 1)], []⟩,
    ⟨.sequence false [2, 16], none, some 0, 0, [2, 16], [], []⟩,
    ⟨.dispatch (some 3) [4, 7] (some 15), none, some 1, 0, [3, 4, 7, 15], [(.elseEntered, 2)], []⟩,
    plain "lvar" 2 0,
    ⟨.arm [5] (some 6), none, some 2, 1, [5, 6], [(.enteredBody, 3)], []⟩,
    plain "const" 4 0,
    plain "send" 4 1,
    ⟨.arm [8] (some 9), none, some 2, 2, [8, 9], [(.enteredBody, 4)], []⟩,
    plain "const" 7 0,
    ⟨.rescue (some 10) [11] (some 14), none, some 7, 1, [10, 11, 14], [], []⟩,
    plain "send" 9 0,
    ⟨.handler (some 12) none (some 13), none, some 9, 1, [12, 13], [(.enteredBody, 5)], []⟩,
    plain "const" 11 0,
    plain "send" 11 1,
    plain "send" 9 2,
    ⟨.emptyBody, none, some 2, 3, [], [], []⟩,
    ⟨.loop .whileTrue .before (some 17) (some 18), none, some 1, 1, [17, 18], [(.body, 6)], []⟩,
    plain "send" 16 0,
    plain "send" 16 1,
    plain "send" 0 1]⟩

theorem Tree.sorting_loaded : Tree.sorting.Loaded := ⟨"sorting", .sorting, by decide +kernel⟩

theorem Tree.sorting_housed : Tree.sorting.Housed where
  arm {i n} hn hk := by
    have hi : i < 20 := size_of_node hn
    interval_cases i <;> cases hn <;> cases hk
    all_goals exact ⟨2, _, _, _, _, rfl, rfl, rfl, by decide⟩
  handler {i n} hn hk := by
    have hi : i < 20 := size_of_node hn
    interval_cases i <;> cases hn <;> cases hk
    exact ⟨9, _, _, _, _, rfl, rfl, rfl, by decide⟩

theorem Tree.sorting_unbroken : Tree.sorting.Unbroken := by
  intro i n hn
  have hi : i < 20 := size_of_node hn
  interval_cases i <;> cases hn <;> exact ⟨rfl, rfl⟩

/-- Of five items two are matched by the first arm and one by the second. -/
theorem Flow.Evidence.entry_of_completion_sorting :
    let e := whole .sorting (.ofList [(1, 5), (2, 2), (3, 2), (4, 1), (5, 0), (6, 7)])
    e.lookup [] (.completion 0) = .ok 5 ∧ e.lookup [.completion 0] (.entry 0) = .ok 5 ∧
      e.lookup [] (.completion 9) = .ok 1 ∧ e.lookup [.entry 0] (.entry 9) = .ok 1 := by
  intro e
  have hd : ∀ {i : NodeId} {n : Node} {subject otherwise : Slot} {arms : List NodeId},
      Tree.sorting.nodes[i]? = some n → n.construct = .dispatch subject arms otherwise →
      e.Unmatched i subject arms (e.reading n .elseEntered) := by
    intro i n subject otherwise arms hn hc
    have hi : i < 20 := Tree.size_of_node hn
    interval_cases i <;> cases hn <;> cases hc
    have hlast : e.lookup [] (.entry 7) = .ok 3 := by decide +kernel
    have hbody : e.lookup [] (.entry 9) = .ok 1 := by decide +kernel
    exact ⟨_, [8], 9, 3, 1, rfl, rfl, ⟨[], hlast⟩, ⟨[], hbody⟩, by decide +kernel⟩
  have hroot : e.lookup [] (.completion 0) = .ok 5 := by decide +kernel
  have hrescue : e.lookup [] (.completion 9) = .ok 1 := by decide +kernel
  have hentered := entry_of_completion Tree.sorting_loaded Tree.sorting_housed
    Tree.sorting_unbroken _ hd (i := 0) rfl (by decide) (by decide) ⟨[], hroot⟩
  have hwatched := entry_of_completion Tree.sorting_loaded Tree.sorting_housed
    Tree.sorting_unbroken _ hd (i := 9) rfl (by decide) (by decide) ⟨[], hrescue⟩
  exact ⟨hroot, hentered _, hrescue, hwatched _⟩

end BranchTally
