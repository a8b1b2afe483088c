import BranchTally.Proofs.Dump.Arena
import BranchTally.Proofs.Report.Outline

/-! The shape of a report. It has one record for each node that branches, parents before children;
its places are numbered from one without a gap in the order in which it is read; and the tags of a
record and of its branches are those of the kind of its construct, a dispatch having a branch for
each of its arms in their order. -/

namespace BranchTally

open BranchTally.Flow Report

/-! ### Nodes -/

/-- Whether a node branches. -/
def Tree.branchesAt (t : Tree) (id : NodeId) : Bool :=
  (t.nodes[id]?).any (·.kind.isBranching)

/-- The nodes of a loaded tree come in the order of their numbers. -/
theorem Tree.Loaded.preorder_eq {t : Tree} (h : t.Loaded) : t.preorder = List.range t.size := by
  obtain ⟨name, d, hd⟩ := h
  obtain ⟨p, hp, hs, rfl⟩ := Dump.layout_of_load hd
  have hsub := (Dump.subtreeRule ⟨p.nodes.toArray⟩).layout hp (by intro j n hn; simpa using hn)
    p.nodes.length (Nat.le_refl _)
  obtain ⟨hslot, hport⟩ := Dump.portrayRule.layout hp
  split at hslot
  next => simp [Option.toList_eq_nil_iff.mp hslot] at hs
  next hd =>
    have hne : p.nodes ≠ [] := List.ne_nil_of_length_pos (by
      simp [hport.length, Dump.present_of_present hd])
    rw [hslot, List.flatMap_singleton] at hsub
    rw [preorder, if_neg (by simp [isEmpty, hne]), show size _ = p.nodes.length from rfl, hsub,
      List.range_eq_range']

namespace Report

/-- The places that a record names, its condition first. -/
def Record.descriptors (r : Record) : List Descriptor := r.condition :: r.branches.map (·.1)

/-! ### Numbers -/

/-- Every construct has one place more than it has branches. -/
theorem descriptors_number (t : Tallied) (ts : List Tallied) (first : Nat) :
    ((number first (t :: ts)).flatMap Record.descriptors).map (·.number) =
      List.range' first (t.branches.length + 1) ++
        ((number (first + 1 + t.branches.length) ts).flatMap Record.descriptors).map
          (·.number) := by
  rw [number, List.flatMap_cons, List.map_append]
  congr 1
  rw [Record.descriptors, descriptors_eq, List.map_cons, List.map_map]
  change first :: ((t.branches.map (·.1)).zipIdx (first + 1)).map (·.2) = _
  rw [List.zipIdx_map_snd, List.length_map, List.range'_succ]

/-- The places of a report are numbered in the order in which it is read. -/
theorem numbers_number (ts : List Tallied) (first : Nat) :
    ((number first ts).flatMap Record.descriptors).map (·.number) =
      List.range' first ((number first ts).flatMap Record.descriptors).length := by
  induction ts generalizing first with
  | nil => rfl
  | cons t ts ih =>
    have hlen : ((number first (t :: ts)).flatMap Record.descriptors).length =
        t.branches.length + 1 +
          ((number (first + 1 + t.branches.length) ts).flatMap Record.descriptors).length := by
      simpa using congrArg List.length (descriptors_number t ts first)
    have hnext : first + 1 + t.branches.length = first + (t.branches.length + 1) := by omega
    rw [descriptors_number, ih, hlen, hnext, List.range'_append_1]

/-! ### Records -/

theorem nodes_number (ts : List Tallied) (first : Nat) :
    (number first ts).map (·.node) = ts.map (·.node) := by
  induction ts generalizing first with
  | nil => rfl
  | cons t ts ih => rw [number, List.map_cons, List.map_cons, ih]

/-- What a record takes over from the construct that was counted. -/
theorem exists_of_mem_number {ts : List Tallied} {first : Nat} {r : Record}
    (h : r ∈ number first ts) : ∃ t ∈ ts, r.node = t.node ∧ r.condition.tag = t.tag ∧
      r.condition.span = t.span ∧ r.branches.map (fun b => (b.1.tag, b.1.span)) =
        t.branches.map fun b => (b.1.tag, b.1.span) := by
  induction ts generalizing first with
  | nil => cases h
  | cons t ts ih =>
    rcases List.mem_cons.mp h with rfl | h
    · refine ⟨t, List.mem_cons_self, rfl, rfl, rfl, ?_⟩
      rw [List.map_map]
      conv_rhs => rw [← List.zipIdx_map_fst (first + 1) t.branches, List.map_map]
      rfl
    · obtain ⟨t', ht, hr⟩ := ih h
      exact ⟨t', List.mem_cons_of_mem t ht, hr⟩

variable {s : Site} {ids : List NodeId} {os : List Outline}

/-- The nodes of the outlines are those that branch. -/
theorem Outlined.nodes (h : Outlined s ids os) :
    os.map (·.1) = ids.filter s.tree.branchesAt := by
  induction h with
  | nil => rfl
  | skip hp _ ih =>
    obtain ⟨n, hn, hnone, -⟩ := Site.plan?_eq_ok hp
    rw [List.filter_cons_of_neg (by simp [Tree.branchesAt, hn, hnone rfl]), ih]
  | take hp _ _ ih =>
    obtain ⟨n, hn, -, hsome⟩ := Site.plan?_eq_ok hp
    have hf := hsome _ rfl
    obtain ⟨outs, hscheme, -⟩ := hf.scheme
    have hb : n.kind.isBranching := by
      rw [Node.kind, ← n.construct.isSome_scheme, hscheme]
      rfl
    rw [List.filter_cons_of_pos (by simp [Tree.branchesAt, hn, hb]), List.map_cons, ih, hf.label]
    rfl

/-- Every construct of an outline is as it was planned. -/
theorem Outlined.plan {x : Tallied} (h : Outlined s ids os) (hx : x.outline ∈ os) :
    ∃ p : Plan, s.plan? x.node = .ok (some p) ∧ p.tag = x.tag ∧ p.span = x.span ∧
      p.branches = (x.branches.map (·.1)).map .ok := by
  induction h with
  | nil => cases hx
  | skip _ _ ih => exact ih hx
  | take hp hb _ ih =>
    rcases List.mem_cons.mp hx with heq | hx
    · obtain ⟨n, hn, -, hsome⟩ := Site.plan?_eq_ok hp
      simp only [Tallied.outline, (hsome _ rfl).label, Prod.mk.injEq] at heq
      obtain ⟨hnode, htag, hspan, rfl⟩ := heq
      rw [hnode]
      exact ⟨_, hp, htag.symm, hspan.symm, hb⟩
    · exact ih hx

/-- Every construct of an outline has a plan which follows the scheme of its node. -/
theorem Outlined.follows {x : Tallied} (h : Outlined s ids os) (hx : x.outline ∈ os) :
    ∃ (n : Node) (p : Plan), s.tree.nodes[x.node]? = some n ∧ p.Follows s x.node n ∧
      p.tag = x.tag ∧ p.branches = (x.branches.map (·.1)).map .ok := by
  obtain ⟨p, hp, htag, -, hb⟩ := h.plan hx
  obtain ⟨n, hn, -, hsome⟩ := Site.plan?_eq_ok hp
  exact ⟨n, p, hn, hsome p rfl, htag, hb⟩

/-! ### Shapes -/

end Report

/-- The tag of a construct that branches and the tags of its branches, in the order of a report. -/
def Construct.tags : Construct → Option (Tag × List Tag)
  | .conditional .negated _ _ _ => some (.unlessTag, [.elseTag, .thenTag])
  | .conditional _ _ _ _ => some (.ifTag, [.thenTag, .elseTag])
  | .dispatch _ arms _ => some (.caseTag, arms.map (fun _ => .whenTag) ++ [.elseTag])
  | .shortCircuit .conjunction _ _ => some (.conjunction, [.thenTag, .elseTag])
  | .shortCircuit .disjunction _ _ => some (.disjunction, [.elseTag, .thenTag])
  | .safeNavigation _ _ => some (.safeNavigation, [.thenTag, .elseTag])
  | .loop .whileTrue _ _ _ => some (.whileTag, [.bodyTag])
  | .loop .untilTrue _ _ _ => some (.untilTag, [.bodyTag])
  | _ => none

/-- The tags of a construct are those of its scheme. -/
theorem Construct.tags_eq (c : Construct) (t : Tree) (id : NodeId) :
    c.tags = (c.scheme t id).map fun (tag, outs) => (tag, outs.map (·.1)) := by
  cases c with
  | conditional style => cases style <;> rfl
  | dispatch subject arms otherwise => simp [tags, scheme, entered, Function.comp_def]
  | shortCircuit op => cases op <;> rfl
  | loop polarity => cases polarity <;> rfl
  | _ => rfl

namespace Report

/-- If all branches of a plan can be placed, they have the tags of the construct. -/
theorem Plan.Follows.tags {s : Site} {id : NodeId} {n : Node} {p : Plan} {bs : List Branch}
    (h : p.Follows s id n) (hb : p.branches = bs.map .ok) :
    n.construct.tags = some (p.tag, bs.map (·.tag)) := by
  obtain ⟨outs, hscheme, houts⟩ := h.scheme
  rw [hb, List.forall₂_map_left_iff] at houts
  have htags : bs.map (·.tag) = outs.map (·.1) := by
    rw [← List.forall₂_eq_eq_eq, List.forall₂_map_left_iff, List.forall₂_map_right_iff]
    exact houts.imp fun b out hp => by rw [← hp b rfl]
  rw [n.construct.tags_eq s.tree id, hscheme, htags]
  rfl

/-- A record has the tags of its construct, and a dispatch has a branch where each of its arms is
placed, in the order of the arms. -/
structure Record.Shaped (r : Record) (s : Site) (n : Node) : Prop where
  tags : n.construct.tags = some (r.condition.tag, r.branches.map (·.1.tag))
  arms : ∀ {subject otherwise : Slot} {arms : List NodeId} {k : Nat} {arm : NodeId},
    n.construct = .dispatch subject arms otherwise → arms[k]? = some arm →
    ∃ b entry, s.planArm r.node arm = .ok b ∧ r.branches[k]? = some entry ∧
      entry.1.tag = b.tag ∧ entry.1.span = b.span

/-- Every record has the shape of its construct. -/
theorem exists_shaped {ts : List Tallied} {r : Record} {first : Nat}
    (h : Outlined s ids (ts.map Tallied.outline)) (hr : r ∈ number first ts) :
    ∃ n, s.tree.nodes[r.node]? = some n ∧ r.Shaped s n := by
  obtain ⟨t, ht, hnode, htag, -, hbranches⟩ := exists_of_mem_number hr
  obtain ⟨n, p, hn, hf, hp, hb⟩ := h.follows (List.mem_map_of_mem ht)
  rw [hnode]
  refine ⟨n, hn, ?_⟩
  constructor
  case tags =>
    rw [hf.tags hb, hp, htag]
    have htags := congrArg (List.map Prod.fst) hbranches
    rw [List.map_map, List.map_map] at htags
    rw [List.map_map]
    exact congrArg (fun tags => some (t.tag, tags)) htags.symm
  case arms =>
    intro subject otherwise arms k arm hc hk
    have hplan := hf.arms hc hk
    rw [hb, List.getElem?_map, Option.map_eq_some_iff] at hplan
    obtain ⟨b, hbk, hok⟩ := hplan
    obtain ⟨x, hx, rfl⟩ := Option.map_eq_some_iff.mp (List.getElem?_map ▸ hbk)
    have hentry := congrArg (·[k]?) hbranches
    simp only [List.getElem?_map, hx] at hentry
    obtain ⟨entry, hentry, heq⟩ := Option.map_eq_some_iff.mp hentry
    exact ⟨x.1, entry, hnode ▸ hok.symm, hentry, congrArg Prod.fst heq, congrArg Prod.snd heq⟩

/-- A report has a record for each node that branches, in their order. -/
theorem nodes_of_build {e : Evidence} {source : Source} {m : Memory} {rs : List Record}
    (h : (build e source m).result = .ok rs) :
    rs.map (·.node) = e.tree.preorder.filter e.tree.branchesAt := by
  obtain ⟨ts, hts, rfl⟩ := survey_of_build h
  rw [nodes_number, ← (outlined_of_survey hts).nodes, List.map_map]
  rfl

theorem mem_branching {t : Tree} (ht : t.Loaded) {i : NodeId} :
    i ∈ t.preorder.filter t.branchesAt ↔ ∃ n, t.nodes[i]? = some n ∧ n.kind.isBranching := by
  rw [ht.preorder_eq, List.mem_filter, List.mem_range, Tree.branchesAt]
  constructor
  · rintro ⟨-, hi⟩
    exact (Option.any_eq_true _ _).mp hi
  · rintro ⟨n, hn, hb⟩
    exact ⟨(Array.getElem?_eq_some_iff.mp hn).1, (Option.any_eq_true _ _).mpr ⟨n, hn, hb⟩⟩

/-- A report on a loaded tree has one record for each node that branches, parents before children;
its places are numbered from one without a gap as it is read; and every record has the shape of its
construct. -/
theorem shape_of_build {t : Tree} (ht : t.Loaded) (counters : Counters) (width : Width)
    (source : Source) (m : Memory) {rs : List Record}
    (h : (build ⟨t, counters, width⟩ source m).result = .ok rs) :
    rs.map (·.node) = t.preorder.filter t.branchesAt ∧
    (rs.map (·.node)).Nodup ∧
    (∀ i, i ∈ rs.map (·.node) ↔ ∃ n, t.nodes[i]? = some n ∧ n.kind.isBranching) ∧
    (rs.flatMap Record.descriptors).map (·.number) =
      List.range' 1 (rs.flatMap Record.descriptors).length ∧
    ∀ r ∈ rs, ∃ n, t.nodes[r.node]? = some n ∧ r.Shaped ⟨t, source⟩ n := by
  have hnodes := nodes_of_build h
  obtain ⟨ts, hts, rfl⟩ := survey_of_build h
  have hout := outlined_of_survey hts
  refine ⟨hnodes, ?_, fun i => ?_, numbers_number ts 1, fun r hr => exists_shaped hout hr⟩
  case refine_1 =>
    rw [hnodes, ht.preorder_eq]
    exact List.nodup_range.filter _
  case refine_2 =>
    rw [hnodes]
    exact mem_branching ht

end Report

/-! ### A tree with choices -/

/-- An `unless` around a `case` with two arms, with a conjunction for its else clause. -/
def Dump.choosing : Dump :=
  let span (l c l' c' : Int) : Option Span := some ⟨⟨l, c⟩, ⟨l', c'⟩⟩
  .node "if" 1 (span 1 0 7 3) [("style", "unless"), ("entry", "1"), ("truthy", "2")]
    [.node "send" 1 (span 1 7 1 12) [] [],
      .node "and" 6 (span 6 2 6 8) [("conditional", "3")]
        [.node "lvar" 6 (span 6 2 6 3) [] [], .node "lvar" 6 (span 6 7 6 8) [] []],
      .node "case" 2 (span 2 2 5 5) [("else_entered", "4")]
        [.node "lvar" 2 (span 2 7 2 11) [] [],
          .node "when" 3 (span 3 2 3 16) [("entered_body", "5")]
            [.node "int" 3 (span 3 7 3 8) [] [], .node "send" 3 (span 3 14 3 16) [] []],
          .node "when" 4 (span 4 2 4 18) [("entered_body", "6")]
            [.node "int" 4 (span 4 7 4 8) [] [], .node "send" 4 (span 4 14 4 18) [] []],
          .node "empty" 2 none [] []]]

def Tree.choosing : Tree :=
  let span (l c l' c' : Int) : Option Span := some ⟨⟨l, c⟩, ⟨l', c'⟩⟩
  let plain (type : String) (span : Option Span) (parent index : Nat) : Node :=
    ⟨.expression type [], span, some parent, index, [], [], []⟩
  ⟨#[⟨.conditional .negated (some 1) (some 2) (some 5), span 1 0 7 3, none, 0, [1, 2, 5],
      [(.truthy, 2), (.entry, 1)], []⟩,
    plain "send" (span 1 7 1 12) 0 0,
    ⟨.shortCircuit .conjunction (some 3) (some 4), span 6 2 6 8, some 0, 1, [3, 4],
      [(.conditional, 3)], []⟩,
    plain "lvar" (span 6 2 6 3) 2 0,
    plain "lvar" (span 6 7 6 8) 2 1,
    ⟨.dispatch (some 6) [7, 10] (some 13), span 2 2 5 5, some 0, 2, [6, 7, 10, 13],
      [(.elseEntered, 4)], []⟩,
    plain "lvar" (span 2 7 2 11) 5 0,
    ⟨.arm [8] (some 9), span 3 2 3 16, some 5, 1, [8, 9], [(.enteredBody, 5)], []⟩,
    plain "int" (span 3 7 3 8) 7 0,
    plain "send" (span 3 14 3 16) 7 1,
    ⟨.arm [11] (some 12), span 4 2 4 18, some 5, 2, [11, 12], [(.enteredBody, 6)], []⟩,
    plain "int" (span 4 7 4 8) 10 0,
    plain "send" (span 4 14 4 18) 10 1,
    ⟨.emptyBody, none, some 5, 3, [], [], []⟩]⟩

theorem Tree.choosing_loaded : Tree.choosing.Loaded := ⟨"choosing", .choosing, by decide +kernel⟩

/-- Three runs through `Tree.choosing`, of which one goes to the else clause and one to each arm. -/
def Tree.choosingEvidence : Evidence :=
  ⟨.choosing, .ofList [(1, 3), (2, 1), (3, 0), (4, 0), (5, 1), (6, 1)], .word⟩

theorem Tree.choosing_hits_nonneg :
    ∀ tracker, 0 ≤ Tree.choosingEvidence.counters.hits .word tracker :=
  Counters.hits_nonneg (by decide +kernel)

namespace Report

def choosingReport : List Record :=
  let span (l c l' c' : Int) : Span := ⟨⟨l, c⟩, ⟨l', c'⟩⟩
  [⟨0, ⟨.unlessTag, 1, span 1 0 7 3⟩,
      [(⟨.elseTag, 2, span 6 2 6 8⟩, 1), (⟨.thenTag, 3, span 2 2 5 5⟩, 2)]⟩,
    ⟨2, ⟨.conjunction, 4, span 6 2 6 8⟩,
      [(⟨.thenTag, 5, span 6 7 6 8⟩, 0), (⟨.elseTag, 6, span 6 3 6 3⟩, 1)]⟩,
    ⟨5, ⟨.caseTag, 7, span 2 2 5 5⟩,
      [(⟨.whenTag, 8, span 3 14 3 16⟩, 1), (⟨.whenTag, 9, span 4 14 4 18⟩, 1),
        (⟨.elseTag, 10, span 2 7 2 11⟩, 0)]⟩]

theorem shape_of_build_choosing :
    let e := Tree.choosingEvidence
    (build e ⟨[]⟩ e.memory).result = .ok choosingReport ∧
      choosingReport.map (·.node) = e.tree.preorder.filter e.tree.branchesAt ∧
      (choosingReport.flatMap Record.descriptors).map (·.number) = List.range' 1 10 ∧
      ∀ r ∈ choosingReport, ∃ n, e.tree.nodes[r.node]? = some n ∧ r.Shaped ⟨e.tree, ⟨[]⟩⟩ n := by
  intro e
  have hr : (build e ⟨[]⟩ e.memory).result = .ok choosingReport := by decide +kernel
  obtain ⟨hnodes, -, -, hnumbers, hshaped⟩ := shape_of_build Tree.choosing_loaded _ _ _ _ hr
  exact ⟨hr, hnodes, hnumbers, hshaped⟩

end Report

end BranchTally
