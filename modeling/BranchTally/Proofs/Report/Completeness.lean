import BranchTally.Proofs.Flow.Totality
import BranchTally.Proofs.Report.Shape

/-! Which trees have a report. A construct that branches and lacks one of its slots spoils every
report on its tree, whatever was counted. On a tree where no slot is missing, and where everything
that a branch is placed at is written somewhere, the branches of all constructs can be placed: only
counters that contradict each other stand in the way of a report. -/

namespace BranchTally

open BranchTally.Flow Report

/-! ### Gaps -/

/-- A construct that branches lacks a slot that it cannot do without, or a dispatch an arm's body. -/
def Tree.Gapped (t : Tree) (n : Node) : Prop :=
  (n.kind.isBranching ∧ ∃ name, (name, none) ∈ n.construct.needs) ∨
    ∃ subject arms otherwise, n.construct = .dispatch subject arms otherwise ∧
      ∃ arm ∈ arms, ∃ m patterns, t.nodes[arm]? = some m ∧ m.construct = .arm patterns none

/-- The nodes at which a construct is placed with its branches, besides itself and the branches. -/
def Construct.anchors (t : Tree) : Construct → List NodeId
  | .shortCircuit _ left right => left.toList ++ right.toList
  | .dispatch subject _ _ => subject.toList
  | .loop _ _ _ (some body) =>
    (t.nodes[body]?).elim [] fun n =>
      match n.construct with
      | .sequence _ statements => statements.head?.toList ++ statements.getLast?.toList
      | _ => []
  | _ => []

/-- A tree in which no node lacks a slot that it cannot do without, only empty bodies are not written
anywhere, and no construct is placed at one of these. -/
structure Tree.Complete (t : Tree) : Prop where
  needs : ∀ {i : NodeId} {n : Node} {name : String}, t.nodes[i]? = some n →
    (name, none) ∉ n.construct.needs
  spans : ∀ {i : NodeId} {n : Node}, t.nodes[i]? = some n → n.kind ≠ .emptyBody → n.span.isSome
  anchors : ∀ {i c : NodeId} {n m : Node}, t.nodes[i]? = some n → c ∈ n.construct.anchors t →
    t.nodes[c]? = some m → m.span.isSome

theorem Tree.Complete.not_lacks {t : Tree} (h : t.Complete) (fault : Fault) : ¬t.Lacks fault := by
  rintro ⟨i, n, name, hn, hneed, -⟩
  exact h.needs hn hneed

theorem Construct.mem_present_of_needs {c : Construct} {name : String} {i : NodeId}
    (h : (name, some i) ∈ c.needs) : i ∈ c.present := by
  cases c <;> simp_all [needs, present] <;> tauto

/-- A slot that a node of a complete tree needs holds a node. -/
theorem Tree.Complete.slot {t : Tree} (h : t.Complete) (hl : t.Linked) {i : NodeId} {n : Node}
    (hn : t.nodes[i]? = some n) (name : String) (slot : Slot)
    (hs : (name, slot) ∈ n.construct.needs) : ∃ c, slot = some c ∧ c < t.size := by
  cases slot with
  | none => exact absurd hs (h.needs hn)
  | some c => exact ⟨c, rfl, (hl.lt_of_present hn (Construct.mem_present_of_needs hs)).2⟩

namespace Report

/-! ### Reports on trees with gaps -/

section Gaps

variable {s : Site} {id : NodeId} {n : Node} {p : Plan}

/-- A construct with a plan lacks none of its slots. -/
theorem needs_of_plan (hn : s.tree.nodes[id]? = some n) (h : s.plan? id = .ok (some p))
    (name : String) : (name, none) ∉ n.construct.needs := by
  obtain ⟨n', hn', -, hplanned⟩ := Site.planned_of_plan? h
  cases hn.symm.trans hn'
  cases hplanned p rfl with
  | conditional hc h =>
    obtain ⟨_, hcondition, h⟩ := bind_eq_ok.mp h
    obtain ⟨_, hheld, h⟩ := bind_eq_ok.mp h
    obtain ⟨_, hfailed, -⟩ := bind_eq_ok.mp h
    rw [hc, Tree.required_eq_ok.mp hcondition, Tree.required_eq_ok.mp hheld,
      Tree.required_eq_ok.mp hfailed]
    simp [Construct.needs]
  | dispatch hc h =>
    obtain ⟨_, hotherwise, -⟩ := bind_eq_ok.mp h
    rw [hc, Tree.required_eq_ok.mp hotherwise]
    simp [Construct.needs]
  | shortCircuit hc h =>
    obtain ⟨_, hleft, h⟩ := bind_eq_ok.mp h
    obtain ⟨_, hright, -⟩ := bind_eq_ok.mp h
    rw [hc, Tree.required_eq_ok.mp hleft, Tree.required_eq_ok.mp hright]
    simp [Construct.needs]
  | safeNavigation hc h =>
    obtain ⟨_, hreceiver, -⟩ := bind_eq_ok.mp h
    rw [hc, Tree.required_eq_ok.mp hreceiver]
    simp [Construct.needs]
  | loop hc h =>
    obtain ⟨_, hcondition, h⟩ := bind_eq_ok.mp h
    obtain ⟨_, hbody, -⟩ := bind_eq_ok.mp h
    rw [hc, Tree.required_eq_ok.mp hcondition, Tree.required_eq_ok.mp hbody]
    simp [Construct.needs]

/-- Each of the nodes of an outline has nothing to plan, or a plan with branches that are all
placed. -/
theorem Outlined.plan_of_mem {ids : List NodeId} {os : List Outline} (h : Outlined s ids os)
    (hid : id ∈ ids) : s.plan? id = .ok none ∨
      ∃ p, s.plan? id = .ok (some p) ∧ ∃ bs : List Branch, p.branches = bs.map .ok := by
  induction h with
  | nil => cases hid
  | skip hp _ ih =>
    rcases List.mem_cons.mp hid with rfl | hid
    · exact .inl hp
    · exact ih hid
  | take hp hb _ ih =>
    rcases List.mem_cons.mp hid with rfl | hid
    · exact .inr ⟨_, hp, _, hb⟩
    · exact ih hid

/-- In a report every construct that branches has been planned. -/
theorem plan_of_build {e : Evidence} {source : Source} {m : Memory} {rs : List Record}
    (ht : e.tree.Loaded) (h : (build e source m).result = .ok rs)
    (hn : e.tree.nodes[id]? = some n) (hb : n.kind.isBranching) :
    ∃ p, Site.plan? ⟨e.tree, source⟩ id = .ok (some p) ∧
      ∃ bs : List Branch, p.branches = bs.map .ok := by
  obtain ⟨ts, hts, -⟩ := survey_of_build h
  have hid : id ∈ e.tree.preorder := by
    rw [ht.preorder_eq, List.mem_range]
    exact Tree.size_of_node hn
  refine ((outlined_of_survey hts).plan_of_mem hid).resolve_left fun hp => ?_
  obtain ⟨n', hn', hnone, -⟩ := Site.plan?_eq_ok hp
  cases hn.symm.trans hn'
  rw [hnone rfl] at hb
  cases hb

/-- A tree with a report has no gaps. -/
theorem not_gapped_of_build {e : Evidence} {source : Source} {m : Memory} {rs : List Record}
    (ht : e.tree.Loaded) (h : (build e source m).result = .ok rs)
    (hn : e.tree.nodes[id]? = some n) : ¬e.tree.Gapped n := by
  rintro (⟨hb, name, hneed⟩ | ⟨subject, arms, otherwise, hc, arm, harm, x, patterns, hx, hxc⟩)
  · obtain ⟨p, hp, -⟩ := plan_of_build ht h hn hb
    exact needs_of_plan (s := ⟨e.tree, source⟩) hn hp name hneed
  · have hb : n.kind.isBranching := by
      rw [Node.kind, hc]
      rfl
    obtain ⟨p, hp, bs, hbs⟩ := plan_of_build ht h hn hb
    obtain ⟨n', hn', -, hsome⟩ := Site.plan?_eq_ok hp
    cases hn.symm.trans hn'
    obtain ⟨k, hk⟩ := List.mem_iff_getElem?.mp harm
    have hplace := (hsome p rfl).arms hc hk
    rw [hbs, List.getElem?_map, Option.map_eq_some_iff] at hplace
    obtain ⟨b, -, hb⟩ := hplace
    obtain ⟨body, hbody, -⟩ := bind_eq_ok.mp hb.symm
    have hbody := Site.armBody_eq_ok hbody
    simp [Tree.armBody?, hx, hxc] at hbody

end Gaps

end Report

/-! ### Values that are there -/

/-- There is a value, and it has a property. -/
def Yields {α : Type} (P : α → Prop) (r : Except Fault α) : Prop := ∃ a, r = .ok a ∧ P a

namespace Yields

variable {α β : Type} {P : α → Prop} {Q : β → Prop} {r : Except Fault α}

theorem pure {a : α} (h : P a) : Yields P (Pure.pure a : Except Fault α) := ⟨a, rfl, h⟩

theorem bind {f : α → Except Fault β} (hr : Yields P r) (hf : ∀ a, P a → Yields Q (f a)) :
    Yields Q (r >>= f) := by
  obtain ⟨a, rfl, ha⟩ := hr
  exact hf a ha

/-- A value that is known is what the rest goes on with. -/
theorem read {f : α → Except Fault β} {a : α} (hr : r = .ok a) (h : Yields Q (f a)) :
    Yields Q (r >>= f) := by
  subst hr
  exact h

theorem map {f : α → β} (hr : Yields P r) (hf : ∀ a, P a → Q (f a)) : Yields Q (f <$> r) := by
  obtain ⟨a, rfl, ha⟩ := hr
  exact ⟨f a, rfl, hf a ha⟩

end Yields

/-- The value is there. -/
abbrev Present {α : Type} (r : Except Fault α) : Prop := Yields (fun _ => True) r

namespace Report.Site

variable {s : Site} {id : Nat} {n : Node}

theorem node_yields (hid : id < s.tree.size) :
    Yields (fun n => s.tree.nodes[id]? = some n) (s.tree.node id) :=
  ⟨_, Tree.node_eq_ok.mpr (Array.getElem?_eq_getElem hid), Array.getElem?_eq_getElem hid⟩

theorem span_present (hn : s.tree.nodes[id]? = some n) (hs : n.span.isSome) :
    Present (s.tree.span id) := by
  obtain ⟨span, hspan⟩ := Option.isSome_iff_exists.mp hs
  refine .read (Tree.node_eq_ok.mpr hn) ?_
  rw [hspan]
  exact .pure trivial

theorem keyword_present (hid : id < s.tree.size) (key : Keyword) :
    Present (s.tree.keyword? id key) :=
  (node_yields hid).bind fun _ _ => .pure trivial

theorem isEmptyBody_eq_ok (hn : s.tree.nodes[id]? = some n) :
    s.tree.isEmptyBody (some id) = .ok (decide (n.kind = .emptyBody)) := by
  simp [Tree.isEmptyBody, Tree.kind, Tree.node_eq_ok.mpr hn, bind, Except.bind, pure, Except.pure]

theorem isChained_yields (hn : s.tree.nodes[id]? = some n) :
    Yields (· = true → n.kind = .conditional) (s.isChained (some id)) := by
  refine .read (Tree.node_eq_ok.mpr hn) ?_
  split
  next hc => exact .pure fun _ => by rw [Node.kind, hc]; rfl
  next => exact .pure fun h => absurd h Bool.false_ne_true

section Linked

variable (hl : s.tree.Linked)

include hl

/-- A chain of conditionals hangs from some node. -/
theorem climb_yields {levels : Nat} (hid : id < s.tree.size) (hlevels : id < levels) :
    Yields (· < s.tree.size) (s.climb levels id) := by
  induction levels generalizing id with
  | zero => omega
  | succ levels ih =>
    have hn : s.tree.nodes[id]? = some s.tree.nodes[id] := Array.getElem?_eq_getElem hid
    refine (isChained_yields hn).bind fun chained _ => ?_
    split
    · refine .read (Tree.parent_eq_ok hn) ?_
      split
      next parent hp =>
        obtain ⟨hlt, -⟩ := hl.child_of_parent hn hp
        exact ih (Nat.lt_trans hlt hid) (Nat.lt_of_lt_of_le hlt (Nat.le_of_lt_succ hlevels))
      next => exact .pure hid
    · exact .pure hid

theorem outermost_yields (hid : id < s.tree.size) : Yields (· < s.tree.size) (s.outermost id) :=
  climb_yields hl hid (by omega)

/-- What a conditional goes on with is a later node. -/
theorem falseBranch_yields (hn : s.tree.nodes[id]? = some n) (hk : n.kind = .conditional) :
    Yields (fun next => ∀ c, next = some c → id < c ∧ c < s.tree.size) (s.falseBranch id) := by
  refine .read (Tree.node_eq_ok.mpr hn) ?_
  split
  next style condition whenTrue whenFalse hc =>
    exact .pure fun c hslot => hl.lt_of_present hn (by simp [hc, hslot, Construct.present])
  next hne =>
    rw [Node.kind] at hk
    cases hc : n.construct with
    | conditional => exact absurd hc (hne _ _ _ _)
    | _ =>
      rw [hc] at hk
      cases hk

/-- The chain that goes on at a conditional ends at one. -/
theorem descend_yields {levels : Nat} (hn : s.tree.nodes[id]? = some n)
    (hk : n.kind = .conditional) (hlevels : s.tree.size ≤ id + levels) :
    Yields (fun last => ∃ m, s.tree.nodes[last]? = some m ∧ m.kind = .conditional)
      (s.descend levels id) := by
  induction levels generalizing id n with
  | zero =>
    have hid : id < s.tree.size := Tree.size_of_node hn
    omega
  | succ levels ih =>
    refine (falseBranch_yields hl hn hk).bind fun next hnext => ?_
    cases next with
    | none => exact .pure ⟨n, hn, hk⟩
    | some below =>
      obtain ⟨hlt, hbelow⟩ : id < below ∧ below < s.tree.size := hnext below rfl
      have hm : s.tree.nodes[below]? = some s.tree.nodes[below] := Array.getElem?_eq_getElem hbelow
      refine (isChained_yields hm).bind fun chained hchained => ?_
      split
      next h => exact ih hm (hchained h) (by omega)
      next => exact .pure ⟨n, hn, hk⟩

theorem reportedSpan_present (hn : s.tree.nodes[id]? = some n) (hs : n.span.isSome) :
    Present (s.reportedSpan id) := by
  have hid := Tree.size_of_node hn
  refine (span_present hn hs).bind fun span _ => (isChained_yields hn).bind fun chained hk => ?_
  split
  next h =>
    refine (descend_yields hl hn (hk h) (by omega)).bind fun last ⟨m, hm, hmk⟩ => ?_
    refine (falseBranch_yields hl hm hmk).bind fun next hnext => ?_
    have hempty : Present (s.tree.isEmptyBody next) := by
      cases next with
      | none => exact .pure trivial
      | some c =>
        have hc := Array.getElem?_eq_getElem (hnext c rfl).2
        exact ⟨_, isEmptyBody_eq_ok hc, trivial⟩
    refine hempty.bind fun empty _ => ?_
    split
    · refine (outermost_yields hl hid).bind fun top htop => ?_
      refine (keyword_present htop .closing).bind fun closing _ => ?_
      cases closing <;> exact .pure trivial
    · exact .pure trivial
  next => exact .pure trivial

end Linked

end Report.Site

/-! ### Plans on complete trees -/

/-- The count that belongs to a branch of a node is one that the tree has. -/
def Tree.Tallies (t : Tree) (id : NodeId) : Tally → Prop
  | .derived q => t.Askable q
  | .hits _ => id < t.size

namespace Report

/-- The branch of a node is placed somewhere, and by a count that the tree has. -/
abbrev Placed (t : Tree) (id : NodeId) (branch : Except Fault Branch) : Prop :=
  Yields (fun b => t.Tallies id b.tally) branch

theorem placed_reached {t : Tree} {id c : NodeId} {span : Except Fault Span} (tag : Tag)
    (hspan : Present span) (hc : c < t.size) : Placed t id (reached tag span c) :=
  hspan.bind fun _ _ => .pure hc

namespace Site

variable {s : Site} {id : Nat} {n : Node}

theorem span_of_anchor (hc : s.tree.Complete) (hn : s.tree.nodes[id]? = some n) {c : NodeId}
    (ha : c ∈ n.construct.anchors s.tree) (hlt : c < s.tree.size) : Present (s.tree.span c) :=
  have hx := Array.getElem?_eq_getElem hlt
  span_present hx (hc.anchors hn ha hx)

section Complete

variable (hl : s.tree.Linked) (hc : s.tree.Complete) (hn : s.tree.nodes[id]? = some n)

include hl hc hn

theorem resolve_present {branch : NodeId} (hk : n.kind ≠ .emptyBody) (hb : branch < s.tree.size)
    (marker : Option Span) : Present (s.resolve id (some branch) marker) := by
  have hx : s.tree.nodes[branch]? = some s.tree.nodes[branch] := Array.getElem?_eq_getElem hb
  have hwhole : Present (s.reportedSpan id) := reportedSpan_present hl hn (hc.spans hn hk)
  refine .read Tree.required_some ?_
  refine .read (isEmptyBody_eq_ok hx) ?_
  split
  next =>
    refine .read (Tree.node_eq_ok.mpr hx) ?_
    split
    next => exact .pure trivial
    next =>
      refine .read (Tree.node_eq_ok.mpr hn) ?_
      split
      next subject arms otherwise hd =>
        split
        · exact span_of_anchor hc hn (by simp [hd, Construct.anchors])
            (hl.lt_of_present hn (by simp [hd, Construct.present])).2
        · exact hwhole
      next => exact hwhole
  next hne => exact reportedSpan_present hl hx (hc.spans hx (by simpa using hne))

theorem placed_planClause {branch : NodeId} (hk : n.kind ≠ .emptyBody) (hb : branch < s.tree.size)
    (tag : Tag) {marker : Except Fault (Option Span)} (hm : Present marker) :
    Placed s.tree id (s.planClause id tag branch marker) :=
  placed_reached tag (hm.bind fun marker _ => resolve_present hl hc hn hk hb marker) hb

theorem placed_planArm {arm : NodeId} {x : Node} (hk : n.kind ≠ .emptyBody)
    (hx : s.tree.nodes[arm]? = some x) (hxk : x.kind = .arm) :
    Placed s.tree id (s.planArm id arm) := by
  have harm : arm < s.tree.size := Tree.size_of_node hx
  cases hxc : x.construct with
  | arm patterns inner =>
    obtain ⟨body, rfl, hb⟩ := hc.slot hl hx "body" inner (by simp [hxc, Construct.needs])
    have hy : s.tree.nodes[body]? = some s.tree.nodes[body] := Array.getElem?_eq_getElem hb
    have hbody : s.armBody arm = .ok body := by
      simp [armBody, Tree.node_eq_ok.mpr hx, hxc, bind, Except.bind]
    refine .read hbody ?_
    refine placed_reached .whenTag ?_ hb
    refine (keyword_present harm .opening).bind fun opening _ => ?_
    refine .read (isEmptyBody_eq_ok hy) ?_
    split
    next =>
      cases opening with
      | some k => exact resolve_present hl hc hn hk hb _
      | none =>
        refine (span_present hx (hc.spans hx (by simp [hxk]))).bind fun after _ => ?_
        exact resolve_present hl hc hn hk hb _
    next hne =>
      refine (span_present hy (hc.spans hy (by simpa using hne))).bind fun content _ => ?_
      exact .pure trivial
  | _ =>
    rw [Node.kind, hxc] at hxk
    cases hxk

theorem planConditional_yields {style : Style} {condition whenTrue whenFalse : Slot}
    (hcon : n.construct = .conditional style condition whenTrue whenFalse) :
    Yields (fun p => ∀ branch ∈ p.branches, Placed s.tree id branch)
      (s.planConditional id n style condition whenTrue whenFalse) := by
  have hk : n.kind ≠ .emptyBody := by simp [Node.kind, hcon, Construct.kind]
  obtain ⟨_, rfl, -⟩ := hc.slot hl hn "condition" condition (by simp [hcon, Construct.needs])
  obtain ⟨held, rfl, hheld⟩ :=
    hc.slot hl hn "true branch" whenTrue (by simp [hcon, Construct.needs])
  obtain ⟨failed, rfl, hfailed⟩ :=
    hc.slot hl hn "false branch" whenFalse (by simp [hcon, Construct.needs])
  have hmarkers : Present (s.clauseMarkers id n style) := by
    unfold clauseMarkers
    split
    · exact .pure trivial
    · refine (outermost_yields hl (Tree.size_of_node hn)).bind fun top htop => ?_
      exact (keyword_present htop .closing).bind fun _ _ => .pure trivial
  have hfirst := hmarkers.map (f := (·.1)) (Q := fun _ => True) fun _ _ => trivial
  have hsecond := hmarkers.map (f := (·.2)) (Q := fun _ => True) fun _ _ => trivial
  refine .read Tree.required_some ?_
  refine .read Tree.required_some ?_
  refine .read Tree.required_some ?_
  refine (reportedSpan_present hl hn (hc.spans hn hk)).bind fun span _ => ?_
  simp only
  split
  · refine .pure (List.forall_mem_cons.mpr ⟨?_, List.forall_mem_singleton.mpr ?_⟩)
    · exact placed_planClause hl hc hn hk hheld .elseTag hsecond
    · exact placed_planClause hl hc hn hk hfailed .thenTag hfirst
  · refine .pure (List.forall_mem_cons.mpr ⟨?_, List.forall_mem_singleton.mpr ?_⟩)
    · exact placed_planClause hl hc hn hk hheld .thenTag hfirst
    · exact placed_planClause hl hc hn hk hfailed .elseTag hsecond

theorem planDispatch_yields {subject otherwise : Slot} {arms : List NodeId}
    (hcon : n.construct = .dispatch subject arms otherwise) :
    Yields (fun p => ∀ branch ∈ p.branches, Placed s.tree id branch)
      (s.planDispatch id n arms otherwise) := by
  have hk : n.kind ≠ .emptyBody := by simp [Node.kind, hcon, Construct.kind]
  obtain ⟨unmatched, rfl, hunmatched⟩ :=
    hc.slot hl hn "else branch" otherwise (by simp [hcon, Construct.needs])
  have harms : ∀ arm ∈ arms, Placed s.tree id (s.planArm id arm) := by
    intro arm harm
    obtain ⟨x, hx, hxk⟩ := hl.arm_kind hn hcon harm
    exact placed_planArm hl hc hn hk hx hxk
  refine .read Tree.required_some ?_
  refine (span_present hn (hc.spans hn hk)).bind fun span _ => .pure ?_
  refine List.forall_mem_append.mpr ⟨List.forall_mem_map.mpr harms, List.forall_mem_singleton.mpr ?_⟩
  exact placed_reached .elseTag (resolve_present hl hc hn hk hunmatched _) hunmatched

theorem planShortCircuit_yields {op : Connective} {left right : Slot}
    (hcon : n.construct = .shortCircuit op left right) :
    Yields (fun p => ∀ branch ∈ p.branches, Placed s.tree id branch)
      (s.planShortCircuit id n op left right) := by
  have hk : n.kind ≠ .emptyBody := by simp [Node.kind, hcon, Construct.kind]
  obtain ⟨first, rfl, hfirst⟩ :=
    hc.slot hl hn "left operand" left (by simp [hcon, Construct.needs])
  obtain ⟨second, rfl, hsecond⟩ :=
    hc.slot hl hn "right operand" right (by simp [hcon, Construct.needs])
  have hleft : Present (s.tree.span first) :=
    span_of_anchor hc hn (by simp [hcon, Construct.anchors]) hfirst
  have hright : Present (s.tree.span second) :=
    span_of_anchor hc hn (by simp [hcon, Construct.anchors]) hsecond
  have hask : s.tree.Askable (.implicitBranch id) :=
    ⟨n, hn, by simp [Node.kind, hcon, Construct.kind]⟩
  refine .read Tree.required_some ?_
  refine .read Tree.required_some ?_
  refine (span_present hn (hc.spans hn hk)).bind fun span _ => .pure ?_
  refine List.forall_mem_cons.mpr ⟨?_, List.forall_mem_singleton.mpr ?_⟩
  · exact placed_reached _ hright hsecond
  · exact hleft.bind fun _ _ => .pure hask

theorem planSafeNavigation_yields {receiver : Slot} {arguments : List NodeId}
    (hcon : n.construct = .safeNavigation receiver arguments) :
    Yields (fun p => ∀ branch ∈ p.branches, Placed s.tree id branch)
      (s.planSafeNavigation id n receiver) := by
  have hk : n.kind ≠ .emptyBody := by simp [Node.kind, hcon, Construct.kind]
  obtain ⟨_, rfl, -⟩ := hc.slot hl hn "receiver" receiver (by simp [hcon, Construct.needs])
  have hask : s.tree.Askable (.implicitBranch id) :=
    ⟨n, hn, by simp [Node.kind, hcon, Construct.kind]⟩
  refine .read Tree.required_some ?_
  refine (span_present hn (hc.spans hn hk)).bind fun span _ => .pure ?_
  refine List.forall_mem_cons.mpr ⟨?_, List.forall_mem_singleton.mpr ?_⟩
  · exact .pure (Tree.size_of_node hn)
  · exact .pure hask

/-- The first and the last of the statements that a loop is reported by are written somewhere. -/
theorem loopStatements_yields {polarity : Polarity} {test : LoopTest} {condition : Slot}
    {body : NodeId} (hcon : n.construct = .loop polarity test condition (some body)) :
    Yields (fun ids => ∀ c, ids.head? = some c ∨ ids.getLast? = some c → Present (s.tree.span c))
      (s.loopStatements test body) := by
  have hb := (hl.lt_of_present hn (c := body) (by simp [hcon, Construct.present])).2
  obtain ⟨x, hx⟩ : ∃ x, s.tree.nodes[body]? = some x := ⟨_, Array.getElem?_eq_getElem hb⟩
  have hstatements : ∀ {explicit : Bool} {statements : List NodeId},
      x.construct = .sequence explicit statements → ∀ c,
        statements.head? = some c ∨ statements.getLast? = some c → Present (s.tree.span c) := by
    intro explicit statements hxc c hend
    have hmem : c ∈ statements := hend.elim List.mem_of_head? List.mem_of_getLast?
    refine span_of_anchor hc hn ?_ (hl.lt_of_present hx (by simpa [hxc, Construct.present])).2
    simpa [hcon, Construct.anchors, hx, hxc] using hend
  refine .read (Tree.node_eq_ok.mpr hx) ?_
  cases hxc : x.construct with
  | sequence explicit statements =>
    cases test with
    | after => exact .pure (hstatements hxc)
    | before =>
      cases explicit with
      | true => exact .pure (by simp)
      | false => exact .pure (hstatements hxc)
  | emptyBody => cases test <;> exact .pure (by simp)
  | _ =>
    cases test with
    | before => exact .pure (by simp)
    | after =>
      refine .pure fun c hend => ?_
      obtain rfl : body = c := by simpa using hend
      exact span_present hx (hc.spans hx (by simp [Node.kind, hxc, Construct.kind]))

theorem planLoop_yields {polarity : Polarity} {test : LoopTest} {condition body : Slot}
    (hcon : n.construct = .loop polarity test condition body) :
    Yields (fun p => ∀ branch ∈ p.branches, Placed s.tree id branch)
      (s.planLoop id n polarity test condition body) := by
  have hk : n.kind ≠ .emptyBody := by simp [Node.kind, hcon, Construct.kind]
  obtain ⟨_, rfl, -⟩ := hc.slot hl hn "condition" condition (by simp [hcon, Construct.needs])
  obtain ⟨inner, rfl, hinner⟩ := hc.slot hl hn "body" body (by simp [hcon, Construct.needs])
  refine .read Tree.required_some ?_
  refine .read Tree.required_some ?_
  refine (span_present hn (hc.spans hn hk)).bind fun span _ => .pure ?_
  refine List.forall_mem_singleton.mpr (placed_reached .bodyTag ?_ hinner)
  refine (loopStatements_yields hl hc hn hcon).bind fun ids hids => ?_
  split
  next first last hfirst hlast =>
    refine (hids first (.inl hfirst)).bind fun span _ => ?_
    exact (hids last (.inr hlast)).bind fun _ _ => .pure trivial
  next =>
    refine (keyword_present hinner .closing).bind fun closing _ => ?_
    split
    next => exact .pure trivial
    next => exact resolve_present hl hc hn hk hinner none

/-- On a complete tree every construct that branches has a plan, and its branches can be placed. -/
theorem plan?_yields :
    Yields (fun r => ∀ p, r = some p → ∀ branch ∈ p.branches, Placed s.tree id branch)
      (s.plan? id) := by
  have hplan {planned : Except Fault Plan}
      (hp : Yields (fun p => ∀ branch ∈ p.branches, Placed s.tree id branch) planned) :
      Yields (fun r => ∀ p, r = some p → ∀ branch ∈ p.branches, Placed s.tree id branch)
        (some <$> planned) :=
    hp.map fun p hbranches p' hp' => Option.some.inj hp' ▸ hbranches
  refine .read (Tree.node_eq_ok.mpr hn) ?_
  cases hcon : n.construct with
  | conditional => exact hplan (planConditional_yields hl hc hn hcon)
  | dispatch => exact hplan (planDispatch_yields hl hc hn hcon)
  | shortCircuit => exact hplan (planShortCircuit_yields hl hc hn hcon)
  | safeNavigation => exact hplan (planSafeNavigation_yields hl hc hn hcon)
  | loop => exact hplan (planLoop_yields hl hc hn hcon)
  | _ => exact .pure fun p hp => absurd hp.symm (Option.some_ne_none p)

end Complete

end Site

/-! ### Reports on complete trees -/

section Reports

variable {e : Evidence} {source : Source} {id : NodeId} {ids : List NodeId} {fault : Fault}

/-- The branches of a node that are placed are counted within what the tree has. -/
theorem countBranches_sane {branches : List (Except Fault Branch)}
    (h : ∀ branch ∈ branches, Placed e.tree id branch) : e.Sane (countBranches e id branches) := by
  induction branches with
  | nil => exact .pure _
  | cons branch branches ih =>
    obtain ⟨⟨b, hb, htally⟩, hrest⟩ := List.forall_mem_cons.mp h
    have hcount : e.Sane (b.tally.count e id) := by
      cases htag : b.tally with
      | derived q =>
        rw [htag] at htally
        exact .count htally
      | hits role =>
        rw [htag] at htally
        have hn := Tree.node_eq_ok.mpr (Array.getElem?_eq_getElem htally)
        have hhits : e.hits id role = .ok (e.reading e.tree.nodes[id] role) := by
          simp [Evidence.hits, hn, bind, Except.bind, pure, Except.pure]
        rw [Tally.count, hhits]
        exact .pure _
    exact .read hb (.bind hcount fun n => .bind (ih hrest) fun rest => .pure _)

theorem inconsistent_of_count (hl : e.tree.Linked) (hc : e.tree.Complete) {p : Plan}
    (hp : ∀ branch ∈ p.branches, Placed e.tree p.label.id branch)
    (h : (p.count e).run e.answer = .error fault) : fault.category = .inconsistent := by
  have hsane : e.Sane (p.count e) := .bind (countBranches_sane hp) fun _ => .pure _
  have hexcused : e.tree.Excuses fault :=
    hsane.run_error (.always _) (fun q fault hq _ hf => Evidence.answer_excused hl hq hf) h
  exact hexcused.resolve_right (hc.not_lacks fault)

/-- On a complete tree nothing but contradictory counters stops a survey. -/
theorem inconsistent_of_tally (hl : e.tree.Linked) (hc : e.tree.Complete)
    (hids : ∀ id ∈ ids, id < e.tree.size) (h : tally e source ids = .error fault) :
    fault.category = .inconsistent := by
  induction ids with
  | nil => cases h
  | cons id ids ih =>
    obtain ⟨hid, hids⟩ := List.forall_mem_cons.mp hids
    have hn : e.tree.nodes[id]? = some e.tree.nodes[id] := Array.getElem?_eq_getElem hid
    obtain ⟨r, hr, hready⟩ := Site.plan?_yields (s := ⟨e.tree, source⟩) hl hc hn
    rw [tally, hr] at h
    cases r with
    | none => exact ih hids h
    | some p =>
      obtain ⟨n, -, -, hfollows⟩ := Site.plan?_eq_ok hr
      have hlabel : p.label.id = id := congrArg Label.id (hfollows p rfl).label
      change Except.bind ((p.count e).run e.answer) _ = _ at h
      cases hcount : (p.count e).run e.answer with
      | error cause =>
        rw [hcount] at h
        cases h
        exact inconsistent_of_count hl hc (hlabel ▸ hready p rfl) hcount
      | ok x =>
        rw [hcount] at h
        change Except.bind (tally e source ids) _ = _ at h
        cases hrest : tally e source ids with
        | error cause =>
          rw [hrest] at h
          cases h
          exact ih hids hrest
        | ok xs =>
          rw [hrest] at h
          cases h

end Reports

/-- On a loaded tree with a gap at a construct that branches there is no report, whatever the
counters; on a complete tree there is one, unless the counters contradict each other. Lookups leave
a sound memory sound. -/
theorem build_of_gaps {t : Tree} (ht : t.Loaded) (counters : Counters) (width : Width)
    (source : Source) :
    let e : Evidence := ⟨t, counters, width⟩
    ((∃ (i : NodeId) (n : Node), t.nodes[i]? = some n ∧ t.Gapped n) →
      ∀ m, ∃ fault, (build e source m).result = .error fault) ∧
    (t.Complete → ∀ m, m.Sound e → (∃ rs, (build e source m).result = .ok rs) ∨
      ∃ fault, (build e source m).result = .error fault ∧ fault.category = .inconsistent) := by
  intro e
  constructor
  · rintro ⟨i, n, hn, hgap⟩ m
    cases h : (build e source m).result with
    | error fault => exact ⟨fault, rfl⟩
    | ok rs => exact absurd hgap (not_gapped_of_build (e := e) ht h hn)
  · intro hc m hm
    have hl : e.tree.Linked := ht.linked
    rw [build_eq_tally hl source hm]
    cases h : tally e source e.tree.preorder with
    | ok ts => exact .inl ⟨number 1 ts, rfl⟩
    | error fault =>
      refine .inr ⟨fault, rfl, inconsistent_of_tally hl hc (fun i hi => ?_) h⟩
      exact List.mem_range.mp (ht.preorder_eq ▸ hi)

end Report

theorem Tree.choosing_complete : Tree.choosing.Complete := by
  constructor
  case needs =>
    intro i n name hn hneed
    have h : ∀ n ∈ Tree.choosing.nodes, ∀ need ∈ n.construct.needs, need.2.isSome := by
      decide +kernel
    exact Bool.false_ne_true (h n (Array.mem_of_getElem? hn) _ hneed)
  case spans =>
    intro i n hn
    have h : ∀ n ∈ Tree.choosing.nodes, n.kind ≠ .emptyBody → n.span.isSome := by decide +kernel
    exact h n (Array.mem_of_getElem? hn)
  case anchors =>
    intro i c n m hn hc hm
    have h : ∀ n ∈ Tree.choosing.nodes, ∀ c ∈ n.construct.anchors .choosing,
        (Tree.choosing.nodes[c]?).all (·.span.isSome) := by decide +kernel
    simpa [hm] using h n (Array.mem_of_getElem? hn) c hc

/-- The dispatch of `Tree.elseless` lacks its else branch. On `Tree.choosing` nothing is missing: the
runs of `Tree.choosingEvidence` have a report, and counters by which the condition held more often
than it was tested contradict each other. -/
theorem Report.build_of_gaps_choosing :
    let gapped : Evidence := ⟨.elseless, .ofList [(1, 5), (3, 2)], .word⟩
    let e := Tree.choosingEvidence
    let corrupt : Evidence := ⟨.choosing, .ofList [(1, 1), (2, 5)], .word⟩
    (∃ fault, (build gapped ⟨[]⟩ gapped.memory).result = .error fault) ∧
      (∃ rs, (build e ⟨[]⟩ e.memory).result = .ok rs) ∧
      ∃ fault, (build corrupt ⟨[]⟩ corrupt.memory).result = .error fault ∧
        fault.category = .inconsistent := by
  intro gapped e corrupt
  have hgap : Tree.elseless.Gapped Tree.elseless.nodes[0] := .inl ⟨rfl, "else branch", by decide⟩
  have hcomplete (counters : Counters) :=
    (build_of_gaps Tree.choosing_loaded counters .word ⟨[]⟩).2 Tree.choosing_complete _ (.blank _ 14)
  refine ⟨?_, ?_, ?_⟩
  · exact (build_of_gaps Tree.elseless_loaded gapped.counters .word ⟨[]⟩).1 ⟨0, _, rfl, hgap⟩ _
  · have hr : (build e ⟨[]⟩ e.memory).result = .ok choosingReport := by decide +kernel
    rcases hcomplete e.counters with h | ⟨fault, hf, -⟩
    · exact h
    · cases hr.symm.trans hf
  · have hf : (build corrupt ⟨[]⟩ corrupt.memory).result =
        .error (.negative .entry ⟨.dispatch, 5, some ⟨⟨2, 2⟩, ⟨5, 5⟩⟩⟩ (-4)) := by decide +kernel
    rcases hcomplete corrupt.counters with ⟨rs, hr⟩ | h
    · cases hf.symm.trans hr
    · exact h

end BranchTally
