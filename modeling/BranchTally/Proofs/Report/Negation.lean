import BranchTally.Proofs.Report.Chains
import BranchTally.Tree.Edit

/-! A conditional and its negated form. Where `if` is turned into `unless` and its clauses change
places, keys, markers and slots change places together: the two clauses are named in the other
order, each with the key and the place that it had, and nothing else in a report is affected. No
chain passes through the conditional, since it goes on none in either form. -/

namespace BranchTally

open BranchTally.Flow Report

/-- Two computations that go on alike from every value go on alike. -/
theorem bind_congr_ok {ε α β : Type} {r : Except ε α} {f g : α → Except ε β}
    (h : ∀ a, r = .ok a → f a = g a) : r.bind f = r.bind g := by
  cases r with
  | error fault => rfl
  | ok a => exact h a rfl

/-! ### The tree with the conditional negated -/

/-- Two trees that differ in one conditional, of which the second has the negated form. -/
structure Tree.Negates (t t' : Tree) (id : NodeId) (n : Node) (c a b : Slot) : Prop where
  size : t'.size = t.size
  node : t.nodes[id]? = some n
  construct : n.construct = .conditional .plain c a b
  negated : t'.nodes[id]? = some { n with construct := .conditional .negated c b a }
  other : ∀ i, i ≠ id → t'.nodes[i]? = t.nodes[i]?

theorem Tree.negates_of_setConstruct {t t' : Tree} {id : NodeId} {n : Node} {c a b : Slot}
    (hn : t.nodes[id]? = some n) (hc : n.construct = .conditional .plain c a b)
    (h : t.setConstruct id (.conditional .negated c b a) = .ok t') :
    t.Negates t' id n c a b := by
  rw [setConstruct, modify, if_pos (size_of_node hn)] at h
  cases h
  constructor
  case size => exact Array.size_modify
  case node => exact hn
  case construct => exact hc
  case negated => simp [Array.getElem?_modify, hn]
  case other =>
    intro i hi
    simp [Array.getElem?_modify, Ne.symm hi]

namespace Tree.Negates

variable {t t' : Tree} {id : NodeId} {n : Node} {c a b : Slot} (h : t.Negates t' id n c a b)

include h

/-- What reads the same off both forms of the conditional reads the same off all nodes. -/
theorem read {α : Type} (f : Node → Except Fault α)
    (hf : f { n with construct := .conditional .negated c b a } = f n) (i : NodeId) :
    (t'.node i).bind f = (t.node i).bind f := by
  by_cases hi : i = id
  · rw [hi, node_eq_ok.mpr h.negated, node_eq_ok.mpr h.node]
    exact hf
  · rw [show t'.node i = t.node i by simp only [Tree.node, h.other i hi]]

theorem kind_eq (i : NodeId) : t'.kind i = t.kind i :=
  h.read _ (by simp [Node.kind, Construct.kind, h.construct]) i

theorem label_eq (i : NodeId) : t'.label i = t.label i :=
  h.read _ (by simp [Node.label, Node.kind, Construct.kind, h.construct]) i

theorem parent_eq (i : NodeId) : t'.parent i = t.parent i := h.read _ rfl i

theorem span_eq (i : NodeId) : t'.span i = t.span i :=
  h.read _ (by simp [Node.label, Node.kind, Construct.kind, h.construct]) i

theorem keyword_eq (i : NodeId) (key : Keyword) : t'.keyword? i key = t.keyword? i key :=
  h.read _ rfl i

theorem required_eq (owner : NodeId) (slot : Slot) (name : String) :
    t'.required owner slot name = t.required owner slot name := by
  cases slot with
  | none => simp only [required, h.label_eq]
  | some c => rfl

theorem refuse_eq {α : Type} (i : NodeId) : (t'.refuse i : Except Fault α) = t.refuse i := by
  simp only [refuse, h.label_eq]

theorem isEmptyBody_eq (slot : Slot) : t'.isEmptyBody slot = t.isEmptyBody slot := by
  cases slot with
  | none => rfl
  | some i => simp only [isEmptyBody, h.kind_eq]

theorem childrenOf_eq (i : NodeId) : t'.childrenOf i = t.childrenOf i := by
  by_cases hi : i = id
  · rw [hi, childrenOf, childrenOf, h.negated, h.node]
  · rw [childrenOf, childrenOf, h.other i hi]

theorem preorder_eq : t'.preorder = t.preorder := by
  have hsubtree : ∀ levels i, t'.subtree levels i = t.subtree levels i := by
    intro levels
    induction levels with
    | zero => exact fun i => rfl
    | succ levels ih =>
      intro i
      rw [subtree, subtree, h.childrenOf_eq, funext ih]
  have hempty : t'.isEmpty = t.isEmpty := by
    have hsize : t'.nodes.size = t.nodes.size := h.size
    simp only [isEmpty, Array.isEmpty, hsize]
  rw [preorder, preorder, hempty, h.size, hsubtree]

end Tree.Negates

/-! ### Places on both trees -/

namespace Report.Site

variable {t t' : Tree} {id : NodeId} {n : Node} {c a b : Slot} (h : t.Negates t' id n c a b)
  (source : Source)

include h

theorem isChained_negated (slot : Slot) :
    isChained ⟨t', source⟩ slot = isChained ⟨t, source⟩ slot := by
  cases slot with
  | none => rfl
  | some i => exact h.read _ (by simp [h.construct]) i

theorem not_isChained_negated : isChained ⟨t, source⟩ (some id) = .ok false := by
  rw [isChained_eq h.node, h.construct]
  rfl

theorem outermost_negated (i : NodeId) : outermost ⟨t', source⟩ i = outermost ⟨t, source⟩ i := by
  have hclimb : ∀ levels i, climb ⟨t', source⟩ levels i = climb ⟨t, source⟩ levels i := by
    intro levels
    induction levels with
    | zero => exact fun i => rfl
    | succ levels ih =>
      intro i
      simp only [climb, isChained_negated h source, h.parent_eq, ih]
  simp only [outermost, h.size, hclimb]

theorem falseBranch_negated {i : NodeId} (hi : i ≠ id) :
    falseBranch ⟨t', source⟩ i = falseBranch ⟨t, source⟩ i := by
  simp only [falseBranch, Tree.node, h.other i hi, h.refuse_eq]

theorem ne_of_isChained {i : NodeId} (hi : isChained ⟨t, source⟩ (some i) = .ok true) : i ≠ id := by
  rintro rfl
  cases hi.symm.trans (not_isChained_negated h source)

/-- A descent from elsewhere does not come to the conditional. -/
theorem ne_of_descend {levels : Nat} {i j : NodeId} (hi : i ≠ id)
    (hj : descend ⟨t, source⟩ levels i = .ok j) : j ≠ id := by
  induction levels generalizing i with
  | zero => cases hj
  | succ levels ih =>
    obtain ⟨next, -, hj⟩ := bind_eq_ok.mp hj
    cases next with
    | none => exact Except.ok.inj hj ▸ hi
    | some below =>
      obtain ⟨chained, hb, hj⟩ := bind_eq_ok.mp hj
      split at hj
      next hc =>
        subst hc
        exact ih (ne_of_isChained h source hb) hj
      next => exact Except.ok.inj hj ▸ hi

theorem descend_negated {levels : Nat} {i : NodeId} (hi : i ≠ id) :
    descend ⟨t', source⟩ levels i = descend ⟨t, source⟩ levels i := by
  induction levels generalizing i with
  | zero => rfl
  | succ levels ih =>
    simp only [descend, falseBranch_negated h source hi, isChained_negated h source]
    refine bind_congr_ok fun next _ => ?_
    cases next with
    | none => rfl
    | some below =>
      refine bind_congr_ok fun chained hb => ?_
      split
      next hc =>
        subst hc
        exact ih (ne_of_isChained h source hb)
      next => rfl

theorem reportedSpan_negated (i : NodeId) :
    reportedSpan ⟨t', source⟩ i = reportedSpan ⟨t, source⟩ i := by
  simp only [reportedSpan, h.span_eq, isChained_negated h source]
  refine bind_congr_ok fun span _ => bind_congr_ok fun chained hchained => ?_
  split
  next hc =>
    subst hc
    have hi := ne_of_isChained h source hchained
    have hdeepest : deepest ⟨t', source⟩ i = deepest ⟨t, source⟩ i := by
      simp only [deepest, h.size, descend_negated h source hi]
    simp only [hdeepest, h.isEmptyBody_eq, outermost_negated h source, h.keyword_eq]
    refine bind_congr_ok fun last hlast => ?_
    rw [falseBranch_negated h source (ne_of_descend h source hi hlast)]
  next => rfl

theorem resolve_negated (enclosing : NodeId) (branch : Slot) (marker : Option Span) :
    resolve ⟨t', source⟩ enclosing branch marker = resolve ⟨t, source⟩ enclosing branch marker := by
  simp only [resolve, h.required_eq, h.isEmptyBody_eq, h.span_eq, reportedSpan_negated h source]
  refine bind_congr_ok fun i _ => bind_congr_ok fun empty _ => ?_
  split
  next =>
    refine Eq.trans (bind_congr_ok fun m _ => ?_) (h.read _ rfl i)
    split
    next => rfl
    next => exact h.read _ (by simp [h.construct]) enclosing
  next => rfl

theorem clauseMarkers_negated (i : NodeId) (m : Node) (style : Style) :
    clauseMarkers ⟨t', source⟩ i m style = clauseMarkers ⟨t, source⟩ i m style := by
  simp only [clauseMarkers, outermost_negated h source, h.keyword_eq]

/-! ### Plans on both trees -/

theorem planClause_negated (i : NodeId) (tag : Tag) (branch : NodeId)
    (marker : Except Fault (Option Span)) :
    planClause ⟨t', source⟩ i tag branch marker = planClause ⟨t, source⟩ i tag branch marker := by
  simp only [planClause, resolve_negated h source]

theorem planArm_negated (i : NodeId) : planArm ⟨t', source⟩ i = planArm ⟨t, source⟩ i := by
  funext arm
  have hbody : armBody ⟨t', source⟩ arm = armBody ⟨t, source⟩ arm := by
    simp only [armBody, h.required_eq, h.refuse_eq]
    exact h.read _ (by simp [h.construct]) arm
  simp only [planArm, hbody, armSpan, h.keyword_eq, h.isEmptyBody_eq, h.span_eq,
    resolve_negated h source]

theorem loopSpan_negated (i : NodeId) (test : LoopTest) (body : NodeId) :
    loopSpan ⟨t', source⟩ i test body = loopSpan ⟨t, source⟩ i test body := by
  have hstatements : loopStatements ⟨t', source⟩ test body = loopStatements ⟨t, source⟩ test body :=
    h.read _ (by rw [h.construct]; cases test <;> rfl) body
  simp only [loopSpan, hstatements, h.span_eq, h.keyword_eq, resolve_negated h source]

/-- The plans of all other nodes stay as they are. -/
theorem plan?_negated {i : NodeId} (hi : i ≠ id) :
    plan? ⟨t', source⟩ i = plan? ⟨t, source⟩ i := by
  simp only [plan?, Tree.node, h.other i hi, planConditional, planDispatch, planShortCircuit,
    planSafeNavigation, planLoop, h.required_eq, h.span_eq, reportedSpan_negated h source,
    clauseMarkers_negated h source, planClause_negated h source, planArm_negated h source,
    resolve_negated h source, loopSpan_negated h source]

/-- The plan of the negated conditional has the branches of the plain one in the other order. -/
theorem negated_plan {p : Plan} (hp : plan? ⟨t, source⟩ id = .ok (some p)) :
    p.tag = .ifTag ∧ plan? ⟨t', source⟩ id =
      .ok (some { p with tag := .unlessTag, branches := p.branches.reverse }) := by
  obtain ⟨m, hm, hp⟩ := bind_eq_ok.mp hp
  cases (Tree.node_eq_ok.mp hm).symm.trans h.node
  simp only [h.construct] at hp
  obtain ⟨q, hq, heq⟩ := map_eq_ok.mp hp
  obtain rfl := Option.some.inj heq
  obtain ⟨_, hcondition, hq⟩ := bind_eq_ok.mp hq
  obtain ⟨held, hheld, hq⟩ := bind_eq_ok.mp hq
  obtain ⟨failed, hfailed, hq⟩ := bind_eq_ok.mp hq
  obtain ⟨span, hspan, hq⟩ := bind_eq_ok.mp hq
  cases hq
  have hlabel : Node.label { n with construct := .conditional .negated c b a } id = n.label id := by
    simp [Node.label, Node.kind, Construct.kind, h.construct]
  refine ⟨rfl, bind_eq_ok.mpr ⟨_, Tree.node_eq_ok.mpr h.negated, map_eq_ok.mpr ⟨_, ?_, rfl⟩⟩⟩
  refine bind_eq_ok.mpr ⟨_, (h.required_eq _ _ _).trans hcondition, bind_eq_ok.mpr
    ⟨_, Tree.required_eq_ok.mpr (Tree.required_eq_ok.mp hfailed), bind_eq_ok.mpr
      ⟨_, Tree.required_eq_ok.mpr (Tree.required_eq_ok.mp hheld), bind_eq_ok.mpr
        ⟨_, (reportedSpan_negated h source id).trans hspan, ?_⟩⟩⟩⟩
  simp only [hlabel, planClause_negated h source, clauseMarkers_negated h source]
  rfl

end Report.Site

/-! ### Records on both trees -/

namespace Report

/-- What a construct is named by, its condition having the number `first`. -/
def Tallied.named (x : Tallied) (first : Nat) : NodeId × Descriptor × List Descriptor :=
  (x.node, ⟨x.tag, first, x.span⟩,
    ((x.branches.map (·.1)).zipIdx (first + 1)).map fun (b, place) => ⟨b.tag, place, b.span⟩)

/-- Constructs that are related one by one, and have as many branches, have the same numbers. -/
theorem number_related {R : Tallied → Tallied → Prop} {ts us : List Tallied}
    (hlen : ∀ x y, R x y → x.branches.length = y.branches.length) (h : List.Forall₂ R ts us)
    (first : Nat) :
    List.Forall₂ (fun r r' : Record => ∃ x y k, R x y ∧ r.outline = x.named k ∧
      r'.outline = y.named k) (number first ts) (number first us) := by
  induction h generalizing first with
  | nil => exact .nil
  | @cons x y ts us hr _ ih =>
    rw [number, number]
    refine .cons ⟨x, y, first, hr, ?_, ?_⟩ ?_
    · rw [Record.outline, descriptors_eq]
      rfl
    · rw [Record.outline, descriptors_eq]
      rfl
    · rw [hlen x y hr]
      exact ih _

/-- The outline of a construct where the conditional is negated. -/
def negate (id : NodeId) (o : Outline) : Outline :=
  if o.1 = id then (o.1, .unlessTag, o.2.2.1, o.2.2.2.reverse) else o

theorem length_negate (id : NodeId) (o : Outline) :
    (negate id o).2.2.2.length = o.2.2.2.length := by
  unfold negate
  split
  · exact List.length_reverse
  · rfl

section Negates

variable {t t' : Tree} {id : NodeId} {n : Node} {c a b : Slot} (h : t.Negates t' id n c a b)
  {source : Source}

include h

/-- The outlines on the second tree are those on the first with the conditional negated. -/
theorem Outlined.negated {ids : List NodeId} {os : List Outline}
    (ho : Outlined ⟨t, source⟩ ids os) : Outlined ⟨t', source⟩ ids (os.map (negate id)) := by
  induction ho with
  | nil => exact .nil
  | @skip i ids os hp _ ih =>
    obtain ⟨m, hm, hnone, -⟩ := Site.plan?_eq_ok hp
    have hi : i ≠ id := by
      rintro rfl
      cases hm.symm.trans h.node
      have := hnone rfl
      simp [Node.kind, h.construct, Construct.kind, Kind.isBranching] at this
    exact .skip ((Site.plan?_negated h source hi).trans hp) ih
  | @take i ids os p branches hp hb _ ih =>
    obtain ⟨m, hm, -, hsome⟩ := Site.plan?_eq_ok hp
    obtain rfl : p.label.id = i := congrArg Label.id (hsome p rfl).label
    rw [List.map_cons]
    by_cases hi : p.label.id = id
    · have hp' := (Site.negated_plan h source (hi ▸ hp)).2
      rw [negate, if_pos hi]
      rw [← hi] at hp'
      exact .take hp' (by rw [hb, List.map_reverse]) ih
    · rw [negate, if_neg hi]
      exact .take ((Site.plan?_negated h source hi).trans hp) hb ih

end Negates

/-- The record names these branches of its node in this order, numbered after the condition. -/
def Record.Shows (r : Record) (s : Site) (branches : List Branch) : Prop :=
  (∃ p, s.plan? r.node = .ok (some p) ∧ p.branches = branches.map .ok) ∧
    r.branches.map (·.1) =
      (branches.zipIdx (r.condition.number + 1)).map fun (b, place) => ⟨b.tag, place, b.span⟩

/-- The records of a conditional and of its negated form: the condition changes its tag, and the
branches for the clauses `a` and `b` change places. -/
structure Record.Negates (r r' : Record) (s s' : Site) (a b : Slot) : Prop where
  node : r'.node = r.node
  tag : r.condition.tag = .ifTag
  condition : r'.condition = { r.condition with tag := .unlessTag }
  branches : ∃ held failed : Branch, (held.tag, some held.tally) = entered .thenTag a ∧
    (failed.tag, some failed.tally) = entered .elseTag b ∧
    r.Shows s [held, failed] ∧ r'.Shows s' [failed, held]

section Negates

variable {t t' : Tree} {id : NodeId} {n : Node} {c a b : Slot} (h : t.Negates t' id n c a b)
  {source : Source}

include h

/-- A plan of the conditional has a branch for either clause. -/
theorem clauses_of_plan {p : Plan} {bs : List Branch}
    (hp : Site.plan? ⟨t, source⟩ id = .ok (some p)) (hb : p.branches = bs.map .ok) :
    ∃ held failed : Branch, bs = [held, failed] ∧
      (held.tag, some held.tally) = entered .thenTag a ∧
      (failed.tag, some failed.tally) = entered .elseTag b := by
  obtain ⟨m, hm, -, hsome⟩ := Site.plan?_eq_ok hp
  cases hm.symm.trans h.node
  obtain ⟨outs, hscheme, houts⟩ := (hsome p rfl).scheme
  rw [h.construct] at hscheme
  obtain ⟨-, rfl⟩ := Prod.mk.inj (Option.some.inj hscheme)
  rw [hb, List.forall₂_map_left_iff] at houts
  cases houts with
  | @cons held _ bs _ hheld hrest =>
    cases hrest with
    | @cons failed _ bs _ hfailed hnil =>
      cases hnil
      exact ⟨held, failed, rfl, hheld held rfl, hfailed failed rfl⟩

/-- The two records of a construct, the second being on the tree with the negated form. -/
theorem records_of_named {x y : Tallied} {k : Nat} {r r' : Record} {p : Plan}
    (hp : Site.plan? ⟨t, source⟩ x.node = .ok (some p)) (htag : p.tag = x.tag)
    (hb : p.branches = (x.branches.map (·.1)).map .ok) (hy : y.outline = negate id x.outline)
    (hr : r.outline = x.named k) (hr' : r'.outline = y.named k) :
    (r.node = id → r.Negates r' ⟨t, source⟩ ⟨t', source⟩ a b) ∧
      (r.node ≠ id → r'.outline = r.outline) := by
  simp only [Record.outline, Tallied.named, Prod.mk.injEq] at hr hr'
  obtain ⟨hnode, hcondition, hbranches⟩ := hr
  obtain ⟨hnode', hcondition', hbranches'⟩ := hr'
  have hx : x.outline.1 = r.node := hnode.symm
  constructor
  · intro hid
    rw [negate, if_pos (hx.trans hid)] at hy
    simp only [Tallied.outline, Prod.mk.injEq] at hy
    obtain ⟨hynode, hytag, hyspan, hybranches⟩ := hy
    rw [← hnode, hid] at hp
    obtain ⟨htag', hp'⟩ := Site.negated_plan h source hp
    obtain ⟨held, failed, hbs, hheld, hfailed⟩ := clauses_of_plan h hp hb
    rw [hbs] at hb hbranches hybranches
    rw [hybranches] at hbranches'
    have hrid : r'.node = id := (hnode'.trans hynode).trans (hnode.symm.trans hid)
    constructor
    case node => exact hrid.trans hid.symm
    case tag => rw [hcondition, ← htag, htag']
    case condition => rw [hcondition', hcondition, hytag, hyspan]
    case branches =>
      refine ⟨held, failed, hheld, hfailed, ⟨⟨p, hid ▸ hp, hb⟩, ?_⟩, ⟨⟨_, hrid ▸ hp', ?_⟩, ?_⟩⟩
      · rw [hbranches, hcondition]
      · rw [hb]
        rfl
      · rw [hbranches', hcondition']
        rfl
  · intro hid
    rw [negate, if_neg (hx ▸ hid)] at hy
    simp only [Tallied.outline, Prod.mk.injEq] at hy
    obtain ⟨hynode, hytag, hyspan, hybranches⟩ := hy
    rw [hynode] at hnode'
    simp only [Record.outline, hnode', hcondition', hbranches', hytag, hyspan, hybranches, hnode,
      hcondition, hbranches]

end Negates

/-- Let the clauses of an `if` on a loaded tree change places and the `if` become an `unless`. In
reports on both trees, whatever was counted, the conditional has a record, whose condition changes
its tag and nothing else, and whose two branches change places, each keeping its tag and its place;
all other records name the same places in the same way. -/
theorem records_of_negated {t t' : Tree} (ht : t.Loaded) {id : NodeId} {n : Node} {c a b : Slot}
    (hn : t.nodes[id]? = some n) (hc : n.construct = .conditional .plain c a b)
    (ht' : t.setConstruct id (.conditional .negated c b a) = .ok t') (source : Source)
    (counters counters' : Counters) (width width' : Width) (m m' : Memory) {rs rs' : List Record}
    (h : (build ⟨t, counters, width⟩ source m).result = .ok rs)
    (h' : (build ⟨t', counters', width'⟩ source m').result = .ok rs') :
    (∃ r ∈ rs, r.node = id) ∧
      List.Forall₂ (fun r r' : Record =>
        (r.node = id → r.Negates r' ⟨t, source⟩ ⟨t', source⟩ a b) ∧
          (r.node ≠ id → r'.outline = r.outline)) rs rs' := by
  have hneg := Tree.negates_of_setConstruct hn hc ht'
  constructor
  · have hid : id ∈ rs.map (·.node) := by
      rw [nodes_of_build h]
      exact (mem_branching ht).mpr ⟨n, hn, by rw [Node.kind, hc]; rfl⟩
    exact List.mem_map.mp hid
  obtain ⟨ts, hts, rfl⟩ := survey_of_build h
  obtain ⟨us, hus, rfl⟩ := survey_of_build h'
  have hout := outlined_of_survey hts
  have hout' := outlined_of_survey hus
  -- the second survey has one outline, which the first gives
  have hus : us.map Tallied.outline = (ts.map Tallied.outline).map (negate id) := by
    refine hout'.unique ?_
    simp only [hneg.preorder_eq]
    exact hout.negated hneg
  have hrelated : List.Forall₂ (fun x y => y.outline = negate id x.outline) ts us := by
    rw [List.map_map, ← List.forall₂_eq_eq_eq, List.forall₂_map_left_iff,
      List.forall₂_map_right_iff] at hus
    exact hus.flip
  have hplanned : ∀ x ∈ ts, ∃ p : Plan, Site.plan? ⟨t, source⟩ x.node = .ok (some p) ∧
      p.tag = x.tag ∧ p.branches = (x.branches.map (·.1)).map .ok := by
    intro x hx
    obtain ⟨p, hp, htag, -, hb⟩ := hout.plan (List.mem_map_of_mem hx)
    exact ⟨p, hp, htag, hb⟩
  have hboth := (List.forall₂_and_left ts us).mpr ⟨hplanned, hrelated⟩
  refine (number_related (fun x y hxy => ?_) hboth 1).imp ?_
  · have hbranches : y.outline.2.2.2.length = x.outline.2.2.2.length := by
      rw [hxy.2, length_negate]
    simpa [Tallied.outline] using hbranches.symm
  · rintro r r' ⟨x, y, k, ⟨⟨p, hp, htag, hb⟩, hxy⟩, hr, hr'⟩
    exact records_of_named hneg hp htag hb hxy hr hr'

end Report

/-! ### A conditional with an empty clause -/

/-- A conditional whose first clause is written and empty, and whose second one is a loop. -/
def Dump.deferring : Dump :=
  let span (l c l' c' : Int) : Option Span := some ⟨⟨l, c⟩, ⟨l', c'⟩⟩
  .node "if" 1 (span 1 0 4 3)
    [("entry", "1"), ("truthy", "2"), ("begin", "1:5-1:9"), ("else", "2:0-2:4"), ("end", "4:0-4:3")]
    [.node "lvar" 1 (span 1 3 1 4) [] [],
      .node "empty" 1 (span 1 9 1 9) [] [],
      .node "while" 3 (span 3 2 3 11) [("body", "3")]
        [.node "lvar" 3 (span 3 10 3 11) [] [], .node "send" 3 (span 3 2 3 3) [] []]]

def Tree.deferring : Tree :=
  let span (l c l' c' : Int) : Option Span := some ⟨⟨l, c⟩, ⟨l', c'⟩⟩
  let plain (type : String) (span : Option Span) (parent index : Nat) : Node :=
    ⟨.expression type [], span, some parent, index, [], [], []⟩
  ⟨#[⟨.conditional .plain (some 1) (some 2) (some 3), span 1 0 4 3, none, 0, [1, 2, 3],
      [(.truthy, 2), (.entry, 1)],
      [(.closing, ⟨⟨4, 0⟩, ⟨4, 3⟩⟩), (.alternative, ⟨⟨2, 0⟩, ⟨2, 4⟩⟩),
        (.opening, ⟨⟨1, 5⟩, ⟨1, 9⟩⟩)]⟩,
    plain "lvar" (span 1 3 1 4) 0 0,
    ⟨.emptyBody, span 1 9 1 9, some 0, 1, [], [], []⟩,
    ⟨.loop .whileTrue .before (some 4) (some 5), span 3 2 3 11, some 0, 2, [4, 5], [(.body, 3)],
      []⟩,
    plain "lvar" (span 3 10 3 11) 3 0,
    plain "send" (span 3 2 3 3) 3 1]⟩

theorem Tree.deferring_loaded : Tree.deferring.Loaded :=
  ⟨"deferring", .deferring, by decide +kernel⟩

namespace Report

/-- The report on `Tree.deferring` with the conditional in either form, when its clauses and the
body of the loop ran so often. -/
def deferringReport (tag : Tag) (clauses : List (Tag × Span × Int)) (repeated : Int) :
    List Record :=
  let span (l c l' c' : Int) : Span := ⟨⟨l, c⟩, ⟨l', c'⟩⟩
  [⟨0, ⟨tag, 1, span 1 0 4 3⟩,
      (clauses.zipIdx 2).map fun p => (⟨p.1.1, p.2, p.1.2.1⟩, p.1.2.2)⟩,
    ⟨3, ⟨.whileTag, 4, span 3 2 3 11⟩, [(⟨.bodyTag, 5, span 3 2 3 3⟩, repeated)]⟩]

/-- The empty clause is placed after the comment in both reports. -/
theorem records_of_negated_deferring :
    let text : Source := .ofText "if a then # nothing yet\nelse\n  y while b\nend"
    let turned : Tree := ⟨Tree.deferring.nodes.modify 0 fun n =>
      { n with construct := .conditional .negated (some 1) (some 3) (some 2) }⟩
    let e : Evidence := ⟨.deferring, .ofList [(1, 3), (2, 1), (3, 4)], .word⟩
    let e' : Evidence := ⟨turned, .ofList [(1, 5), (2, 4), (3, 0)], .word⟩
    let first : Tag × Span := (.thenTag, ⟨⟨2, 0⟩, ⟨2, 0⟩⟩)
    let second : Tag × Span := (.elseTag, ⟨⟨3, 2⟩, ⟨3, 11⟩⟩)
    let rs := deferringReport .ifTag [(first.1, first.2, 1), (second.1, second.2, 2)] 4
    let rs' := deferringReport .unlessTag [(second.1, second.2, 4), (first.1, first.2, 1)] 0
    (build e text e.memory).result = .ok rs ∧ (build e' text e'.memory).result = .ok rs' ∧
      (∃ r ∈ rs, r.node = 0) ∧
      List.Forall₂ (fun r r' : Record =>
        (r.node = 0 → r.Negates r' ⟨.deferring, text⟩ ⟨turned, text⟩ (some 2) (some 3)) ∧
          (r.node ≠ 0 → r'.outline = r.outline)) rs rs' := by
  intro text turned e e' first second rs rs'
  have hr : (build e text e.memory).result = .ok rs := by decide +kernel
  have hr' : (build e' text e'.memory).result = .ok rs' := by decide +kernel
  exact ⟨hr, hr', records_of_negated Tree.deferring_loaded
    (show Tree.deferring.nodes[0]? = some _ from rfl) rfl rfl text _ _ _ _ _ _ hr hr'⟩

end Report

end BranchTally
