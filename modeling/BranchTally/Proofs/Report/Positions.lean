import BranchTally.Proofs.Report.Chains
import BranchTally.Proofs.Source.Content

/-! Where the positions in a report come from. Each is an end of a node, or the start of an else or
of a closing keyword, or the content that next starts after an opening or an else keyword or after a
dispatch arm: none is made up, whatever keywords are missing and whatever clauses are empty. Without
a text there is nothing to look past, and each is an end of a stretch that the tree holds. -/

namespace BranchTally

open BranchTally.Flow Report

namespace Tree

variable {t : Tree} {id : NodeId} {span : Span}

theorem span_eq_ok : t.span id = .ok span ↔
    ∃ n, t.nodes[id]? = some n ∧ n.span = some span := by
  constructor
  · intro h
    obtain ⟨n, hn, h⟩ := bind_eq_ok.mp h
    refine ⟨n, node_eq_ok.mp hn, ?_⟩
    split at h
    next hs => exact hs.trans (congrArg some (Except.ok.inj h))
    next => cases h
  · rintro ⟨n, hn, hs⟩
    exact bind_eq_ok.mpr ⟨n, node_eq_ok.mpr hn, by rw [hs]; rfl⟩

theorem keyword_eq_ok {key : Keyword} {k : Option Span} : t.keyword? id key = .ok k ↔
    ∃ n, t.nodes[id]? = some n ∧ n.keyword? key = k := by
  constructor
  · intro h
    obtain ⟨n, hn, h⟩ := bind_eq_ok.mp h
    exact ⟨n, node_eq_ok.mp hn, Except.ok.inj h⟩
  · rintro ⟨n, hn, rfl⟩
    exact bind_eq_ok.mpr ⟨n, node_eq_ok.mpr hn, rfl⟩

/-- An end of a stretch that the tree holds, of a node or of a keyword. -/
def Bounds (t : Tree) (p : Position) : Prop :=
  ∃ (i : NodeId) (n : Node) (span : Span), t.nodes[i]? = some n ∧
    (n.span = some span ∨ ∃ key, n.keyword? key = some span) ∧ (p = span.start ∨ p = span.stop)

end Tree

namespace Report.Site

variable {s : Site} {id : NodeId} {n : Node} {p : Position} {span : Span}

/-- What a reported position comes from. -/
inductive Origin (s : Site) (p : Position) : Prop
  /-- An end of a node. -/
  | node {i : NodeId} {n : Node} {span : Span} : s.tree.nodes[i]? = some n → n.span = some span →
    p = span.start ∨ p = span.stop → Origin s p
  /-- The start of an else or of a closing keyword. -/
  | keyword {i : NodeId} {n : Node} {key : Keyword} {span : Span} : s.tree.nodes[i]? = some n →
    n.keyword? key = some span → key ≠ .opening → p = span.start → Origin s p
  /-- The content after an opening or an else keyword. -/
  | content {i : NodeId} {n : Node} {key : Keyword} {span : Span} : s.tree.nodes[i]? = some n →
    n.keyword? key = some span → key ≠ .closing → p = s.source.contentStart span → Origin s p
  /-- The content after a dispatch arm. -/
  | arm {i : NodeId} {n : Node} {span : Span} : s.tree.nodes[i]? = some n → n.kind = .arm →
    n.span = some span → p = s.source.contentStart span → Origin s p

/-- Both ends of a stretch come from somewhere. -/
structure Sourced (s : Site) (span : Span) : Prop where
  start : s.Origin span.start
  stop : s.Origin span.stop

/-- Without a text, every position comes from an end of a stretch that the tree holds. -/
theorem Origin.bounds (h : s.Origin p) (hs : s.source.isEmpty) : s.tree.Bounds p := by
  cases h with
  | node hn hspan hp => exact ⟨_, _, _, hn, .inl hspan, hp⟩
  | keyword hn hkey _ hp => exact ⟨_, _, _, hn, .inr ⟨_, hkey⟩, .inl hp⟩
  | content hn hkey _ hp =>
    rw [Source.contentStart_of_outside (.inl hs)] at hp
    exact ⟨_, _, _, hn, .inr ⟨_, hkey⟩, .inr hp⟩
  | arm hn _ hspan hp =>
    rw [Source.contentStart_of_outside (.inl hs)] at hp
    exact ⟨_, _, _, hn, .inl hspan, .inr hp⟩

namespace Sourced

theorem emptyAt (h : s.Origin p) : s.Sourced (.emptyAt p) := ⟨h, h⟩

theorem withStart (h : s.Sourced span) (hp : s.Origin p) : s.Sourced (span.withStart p) :=
  ⟨hp, h.stop⟩

theorem withStop (h : s.Sourced span) (hp : s.Origin p) : s.Sourced (span.withStop p) :=
  ⟨h.start, hp⟩

theorem node (hn : s.tree.nodes[id]? = some n) (hs : n.span = some span) : s.Sourced span :=
  ⟨.node hn hs (.inl rfl), .node hn hs (.inr rfl)⟩

end Sourced

theorem sourced_of_span (h : s.tree.span id = .ok span) : s.Sourced span := by
  obtain ⟨n, hn, hs⟩ := Tree.span_eq_ok.mp h
  exact .node hn hs

/-- A marker, if there is one, comes from somewhere. -/
def Marked (s : Site) (marker : Option Span) : Prop := ∀ k, marker = some k → s.Sourced k

namespace Marked

variable {marker other : Option Span} {key : Keyword}

theorem none : s.Marked none := nofun

theorem some (h : s.Sourced span) : s.Marked (some span) :=
  fun _ hk => Option.some.inj hk ▸ h

theorem or (h : s.Marked marker) (h' : s.Marked other) : s.Marked (marker.or other) := by
  intro k hk
  rcases Option.or_eq_some_iff.mp hk with hk | ⟨-, hk⟩
  · exact h k hk
  · exact h' k hk

theorem before (hn : s.tree.nodes[id]? = .some n) (hkey : key ≠ .opening) :
    s.Marked ((n.keyword? key).map fun k : Span => Span.emptyAt k.start) := by
  intro k hk
  obtain ⟨written, hw, rfl⟩ := Option.map_eq_some_iff.mp hk
  exact .emptyAt (.keyword hn hw hkey rfl)

theorem after (hn : s.tree.nodes[id]? = .some n) (hkey : key ≠ .closing) :
    s.Marked ((n.keyword? key).map s.source.contentMarker) := by
  intro k hk
  obtain ⟨written, hw, rfl⟩ := Option.map_eq_some_iff.mp hk
  exact .emptyAt (.content hn hw hkey rfl)

end Marked

/-! ### Locating -/

theorem reportedSpan_sourced (h : s.reportedSpan id = .ok span) : s.Sourced span := by
  obtain ⟨written, hw, h⟩ := bind_eq_ok.mp h
  have hwritten := sourced_of_span hw
  obtain ⟨chained, -, h⟩ := bind_eq_ok.mp h
  split at h
  next =>
    obtain ⟨_, -, h⟩ := bind_eq_ok.mp h
    obtain ⟨_, -, h⟩ := bind_eq_ok.mp h
    obtain ⟨empty, -, h⟩ := bind_eq_ok.mp h
    split at h
    next =>
      obtain ⟨top, -, h⟩ := bind_eq_ok.mp h
      obtain ⟨closing, hk, h⟩ := bind_eq_ok.mp h
      obtain ⟨n, hn, rfl⟩ := Tree.keyword_eq_ok.mp hk
      split at h
      next hc =>
        cases h
        exact hwritten.withStop (.keyword hn hc (by decide) rfl)
      next =>
        cases h
        exact hwritten
    next =>
      cases h
      exact hwritten
  next =>
    cases h
    exact hwritten

/-- A branch that is not placed at its marker is placed at a node. -/
theorem resolve_sourced {branch : Slot} {marker : Option Span} (hm : s.Marked marker)
    (h : s.resolve id branch marker = .ok span) : s.Sourced span := by
  obtain ⟨b, -, h⟩ := bind_eq_ok.mp h
  obtain ⟨empty, -, h⟩ := bind_eq_ok.mp h
  split at h
  next =>
    obtain ⟨n, hn, h⟩ := bind_eq_ok.mp h
    split at h
    next written hw =>
      cases h
      cases marker with
      | none => exact .node (Tree.node_eq_ok.mp hn) hw
      | some k => exact hm k rfl
    next =>
      obtain ⟨around, -, h⟩ := bind_eq_ok.mp h
      split at h
      next =>
        split at h
        next => exact sourced_of_span h
        next => exact reportedSpan_sourced h
      next => exact reportedSpan_sourced h
  next => exact reportedSpan_sourced h

end Report.Site

/-! ### Plans -/

namespace Report

/-- A branch that can be placed is placed at a stretch that comes from somewhere. -/
def Branch.Rooted (s : Site) (branch : Except Fault Branch) : Prop :=
  ∀ b, branch = .ok b → s.Sourced b.span

/-- A plan whose places all come from somewhere. -/
structure Plan.Rooted (p : Plan) (s : Site) : Prop where
  condition : s.Sourced p.span
  branches : ∀ branch ∈ p.branches, Branch.Rooted s branch

namespace Site

variable {s : Site} {id : NodeId} {n : Node} {p : Plan} {tag : Tag}

theorem rooted_reached {place : Except Fault Span} {c : NodeId}
    (h : ∀ span, place = .ok span → s.Sourced span) : Branch.Rooted s (reached tag place c) := by
  intro b hb
  obtain ⟨span, hspan, rfl⟩ := reached_eq_ok.mp hb
  exact h span hspan

theorem rooted_planClause {c : NodeId} {marker : Except Fault (Option Span)}
    (h : ∀ m, marker = .ok m → s.Marked m) : Branch.Rooted s (s.planClause id tag c marker) := by
  refine rooted_reached fun span hspan => ?_
  obtain ⟨m, hm, hspan⟩ := bind_eq_ok.mp hspan
  exact resolve_sourced (h m hm) hspan

section Node

variable (hn : s.tree.nodes[id]? = some n)

include hn

/-- Both markers of a conditional come from its keywords, or from the one that closes its chain. -/
theorem clauseMarkers_marked {style : Style} {markers : Option Span × Option Span}
    (h : s.clauseMarkers id n style = .ok markers) : s.Marked markers.1 ∧ s.Marked markers.2 := by
  unfold clauseMarkers at h
  split at h
  next =>
    cases h
    exact ⟨.none, .none⟩
  next =>
    obtain ⟨top, -, h⟩ := bind_eq_ok.mp h
    obtain ⟨closing, hk, h⟩ := bind_eq_ok.mp h
    obtain ⟨m, hm, rfl⟩ := Tree.keyword_eq_ok.mp hk
    obtain rfl := Except.ok.inj h
    have hlast : s.Marked _ := .before hm (show Keyword.closing ≠ .opening by decide)
    refine ⟨Marked.or ?first hlast, Marked.or (.after hn (by decide)) hlast⟩
    case first =>
      split
      next opening ho => exact .some (.emptyAt (.content hn ho (by decide) rfl))
      next => exact .before hn (by decide)

theorem conditional_rooted {style : Style} {condition whenTrue whenFalse : Slot}
    (h : s.planConditional id n style condition whenTrue whenFalse = .ok p) : p.Rooted s := by
  obtain ⟨_, -, h⟩ := bind_eq_ok.mp h
  obtain ⟨held, -, h⟩ := bind_eq_ok.mp h
  obtain ⟨failed, -, h⟩ := bind_eq_ok.mp h
  obtain ⟨span, hspan, h⟩ := bind_eq_ok.mp h
  have hfirst : ∀ tag c, Branch.Rooted s
      (s.planClause id tag c ((s.clauseMarkers id n style).map (·.1))) := by
    refine fun tag c => rooted_planClause fun m hm => ?_
    obtain ⟨markers, hmarkers, rfl⟩ := map_eq_ok.mp hm
    exact (clauseMarkers_marked hn hmarkers).1
  have hsecond : ∀ tag c, Branch.Rooted s
      (s.planClause id tag c ((s.clauseMarkers id n style).map (·.2))) := by
    refine fun tag c => rooted_planClause fun m hm => ?_
    obtain ⟨markers, hmarkers, rfl⟩ := map_eq_ok.mp hm
    exact (clauseMarkers_marked hn hmarkers).2
  simp only at h
  split at h
  next =>
    cases h
    exact ⟨reportedSpan_sourced hspan, by simp [hfirst, hsecond]⟩
  next =>
    cases h
    exact ⟨reportedSpan_sourced hspan, by simp [hfirst, hsecond]⟩

end Node

/-- The body of an arm is placed at a node, or at the content after the arm or its keyword. -/
theorem rooted_planArm (arm : NodeId) : Branch.Rooted s (s.planArm id arm) := by
  intro b hb
  obtain ⟨body, hbody, hb⟩ := bind_eq_ok.mp hb
  obtain ⟨m, hm, hbody⟩ := bind_eq_ok.mp hbody
  have hm := Tree.node_eq_ok.mp hm
  have hk : m.kind = .arm := by
    split at hbody
    next hc => rw [Node.kind, hc]; rfl
    next => exact absurd hbody Tree.refuse_ne_ok
  refine rooted_reached (fun span hspan => ?_) b hb
  obtain ⟨opening, ho, hspan⟩ := bind_eq_ok.mp hspan
  obtain ⟨m', hm', rfl⟩ := Tree.keyword_eq_ok.mp ho
  cases hm.symm.trans hm'
  obtain ⟨empty, -, hspan⟩ := bind_eq_ok.mp hspan
  split at hspan
  next =>
    simp only at hspan
    split at hspan
    next key hkey =>
      obtain ⟨_, ⟨⟩, hspan⟩ := bind_eq_ok.mp hspan
      exact resolve_sourced (.some (.emptyAt (.content hm hkey (by decide) rfl))) hspan
    next =>
      obtain ⟨after, hafter, hspan⟩ := bind_eq_ok.mp hspan
      obtain ⟨m', hm', hs⟩ := Tree.span_eq_ok.mp hafter
      cases hm.symm.trans hm'
      exact resolve_sourced (.some (.emptyAt (.arm hm hk hs rfl))) hspan
  next =>
    obtain ⟨content, hcontent, hspan⟩ := bind_eq_ok.mp hspan
    split at hspan
    next hkey =>
      cases hspan
      exact (sourced_of_span hcontent).withStart (.content hm hkey (by decide) rfl)
    next =>
      cases hspan
      exact sourced_of_span hcontent

theorem dispatch_rooted (hn : s.tree.nodes[id]? = some n) {arms : List NodeId} {otherwise : Slot}
    (h : s.planDispatch id n arms otherwise = .ok p) : p.Rooted s := by
  obtain ⟨unmatched, -, h⟩ := bind_eq_ok.mp h
  obtain ⟨span, hspan, h⟩ := bind_eq_ok.mp h
  cases h
  refine ⟨sourced_of_span hspan, fun branch hb => ?_⟩
  rcases List.mem_append.mp hb with hb | hb
  · obtain ⟨arm, -, rfl⟩ := List.mem_map.mp hb
    exact rooted_planArm arm
  · obtain rfl := List.mem_singleton.mp hb
    refine rooted_reached fun place hplace => resolve_sourced ?_ hplace
    split
    next hc => exact .some (.emptyAt (.keyword hn hc (by decide) rfl))
    next => exact .none

theorem shortCircuit_rooted {op : Connective} {left right : Slot}
    (h : s.planShortCircuit id n op left right = .ok p) : p.Rooted s := by
  obtain ⟨left, -, h⟩ := bind_eq_ok.mp h
  obtain ⟨right, -, h⟩ := bind_eq_ok.mp h
  obtain ⟨span, hspan, h⟩ := bind_eq_ok.mp h
  have hevaluated : ∀ tag, Branch.Rooted s (reached tag (s.tree.span right) right) :=
    fun tag => rooted_reached fun place => sourced_of_span
  have hskipped : ∀ tag, Branch.Rooted s
      (do return ⟨tag, .emptyAt (← s.tree.span left).stop, .derived (.implicitBranch id)⟩) := by
    intro tag b hb
    obtain ⟨place, hplace, hb⟩ := bind_eq_ok.mp hb
    cases hb
    exact .emptyAt (sourced_of_span hplace).stop
  cases op with
  | conjunction =>
    cases h
    exact ⟨sourced_of_span hspan,
      List.forall_mem_cons.mpr ⟨hevaluated _, List.forall_mem_singleton.mpr (hskipped _)⟩⟩
  | disjunction =>
    cases h
    exact ⟨sourced_of_span hspan,
      List.forall_mem_cons.mpr ⟨hevaluated _, List.forall_mem_singleton.mpr (hskipped _)⟩⟩

theorem safeNavigation_rooted {receiver : Slot}
    (h : s.planSafeNavigation id n receiver = .ok p) : p.Rooted s := by
  obtain ⟨_, -, h⟩ := bind_eq_ok.mp h
  obtain ⟨span, hspan, h⟩ := bind_eq_ok.mp h
  cases h
  refine ⟨sourced_of_span hspan, fun branch hb b hok => ?_⟩
  have hplace : b.span = span := by
    simp only [List.mem_cons, List.not_mem_nil, or_false] at hb
    rcases hb with rfl | rfl <;> cases hok <;> rfl
  exact hplace ▸ sourced_of_span hspan

/-- The body of a loop is placed from its first statement to its last, before its closing keyword,
or as a branch without a marker. -/
theorem loopSpan_sourced {test : LoopTest} {body : NodeId} {span : Span}
    (h : s.loopSpan id test body = .ok span) : s.Sourced span := by
  obtain ⟨statements, -, h⟩ := bind_eq_ok.mp h
  split at h
  next first last _ _ =>
    obtain ⟨place, hfirst, h⟩ := bind_eq_ok.mp h
    obtain ⟨place', hlast, h⟩ := bind_eq_ok.mp h
    cases h
    exact (sourced_of_span hfirst).withStop (sourced_of_span hlast).stop
  next =>
    obtain ⟨closing, hk, h⟩ := bind_eq_ok.mp h
    obtain ⟨m, hm, rfl⟩ := Tree.keyword_eq_ok.mp hk
    split at h
    next closing hc _ _ =>
      cases h
      exact .emptyAt (.keyword hm hc (by decide) rfl)
    next => exact resolve_sourced .none h

theorem loop_rooted {polarity : Polarity} {test : LoopTest} {condition body : Slot}
    (h : s.planLoop id n polarity test condition body = .ok p) : p.Rooted s := by
  obtain ⟨_, -, h⟩ := bind_eq_ok.mp h
  obtain ⟨body, -, h⟩ := bind_eq_ok.mp h
  obtain ⟨span, hspan, h⟩ := bind_eq_ok.mp h
  cases h
  refine ⟨sourced_of_span hspan, fun branch hb => ?_⟩
  obtain rfl := List.mem_singleton.mp hb
  exact rooted_reached fun place => loopSpan_sourced

theorem rooted_of_plan (h : s.plan? id = .ok (some p)) : p.Rooted s := by
  obtain ⟨n, hn, -, hplanned⟩ := planned_of_plan? h
  cases hplanned p rfl with
  | conditional _ h => exact conditional_rooted hn h
  | dispatch _ h => exact dispatch_rooted hn h
  | shortCircuit _ h => exact shortCircuit_rooted h
  | safeNavigation _ h => exact safeNavigation_rooted h
  | loop _ h => exact loop_rooted h

end Site

/-! ### Reports -/

/-- Both ends of every place in a report, of conditions and of branches, come from the tree: from an
end of a node, from the start of an else or closing keyword, or from the content after an opening or
else keyword or after a dispatch arm. Without a text both are ends of stretches that the tree
holds. -/
theorem positions_of_build {e : Evidence} {source : Source} {m : Memory} {rs : List Record}
    (h : (build e source m).result = .ok rs) :
    ∀ r ∈ rs, ∀ d ∈ r.descriptors, ∀ p, p = d.span.start ∨ p = d.span.stop →
      Site.Origin ⟨e.tree, source⟩ p ∧ (source.isEmpty → e.tree.Bounds p) := by
  intro r hr d hd p hp
  obtain ⟨plan, bs, hplan, hspan, hbs, hspans⟩ := plan_of_record h hr
  have hrooted := Site.rooted_of_plan hplan
  have hsourced : Site.Sourced ⟨e.tree, source⟩ d.span := by
    rcases List.mem_cons.mp hd with rfl | hd
    · exact hspan ▸ hrooted.condition
    · obtain ⟨entry, hentry, rfl⟩ := List.mem_map.mp hd
      have hplace : entry.1.span ∈ bs.map (·.span) :=
        hspans ▸ List.mem_map_of_mem (f := fun b : Descriptor × Int => b.1.span) hentry
      obtain ⟨b, hb, heq⟩ := List.mem_map.mp hplace
      exact heq ▸ hrooted.branches (.ok b) (hbs ▸ List.mem_map_of_mem hb) b rfl
  have horigin : Site.Origin ⟨e.tree, source⟩ p := by
    rcases hp with rfl | rfl
    · exact hsourced.start
    · exact hsourced.stop
  exact ⟨horigin, horigin.bounds⟩

end Report

/-! ### A tree with empty clauses -/

/-- A dispatch whose first arm and whose else clause are written and empty, and whose second arm has
a keyword before its body. -/
def Dump.parting : Dump :=
  let span (l c l' c' : Int) : Option Span := some ⟨⟨l, c⟩, ⟨l', c'⟩⟩
  .node "case" 1 (span 1 0 5 3)
    [("entry", "1"), ("else_entered", "2"), ("else", "4:0-4:4"), ("end", "5:0-5:3")]
    [.node "lvar" 1 (span 1 5 1 6) [] [],
      .node "when" 2 (span 2 0 2 6) [("entered_body", "3")]
        [.node "int" 2 (span 2 5 2 6) [] [], .node "empty" 2 (span 2 6 2 6) [] []],
      .node "when" 3 (span 3 0 3 13) [("entered_body", "4"), ("begin", "3:7-3:11")]
        [.node "int" 3 (span 3 5 3 6) [] [], .node "send" 3 (span 3 12 3 13) [] []],
      .node "empty" 4 (span 4 4 4 4) [] []]

def Tree.parting : Tree :=
  let span (l c l' c' : Int) : Option Span := some ⟨⟨l, c⟩, ⟨l', c'⟩⟩
  let plain (type : String) (span : Option Span) (parent index : Nat) : Node :=
    ⟨.expression type [], span, some parent, index, [], [], []⟩
  ⟨#[⟨.dispatch (some 1) [2, 5] (some 8), span 1 0 5 3, none, 0, [1, 2, 5, 8],
      [(.elseEntered, 2), (.entry, 1)],
      [(.closing, ⟨⟨5, 0⟩, ⟨5, 3⟩⟩), (.alternative, ⟨⟨4, 0⟩, ⟨4, 4⟩⟩)]⟩,
    plain "lvar" (span 1 5 1 6) 0 0,
    ⟨.arm [3] (some 4), span 2 0 2 6, some 0, 1, [3, 4], [(.enteredBody, 3)], []⟩,
    plain "int" (span 2 5 2 6) 2 0,
    ⟨.emptyBody, span 2 6 2 6, some 2, 1, [], [], []⟩,
    ⟨.arm [6] (some 7), span 3 0 3 13, some 0, 2, [6, 7], [(.enteredBody, 4)],
      [(.opening, ⟨⟨3, 7⟩, ⟨3, 11⟩⟩)]⟩,
    plain "int" (span 3 5 3 6) 5 0,
    plain "send" (span 3 12 3 13) 5 1,
    ⟨.emptyBody, span 4 4 4 4, some 0, 3, [], [], []⟩]⟩

theorem Tree.parting_loaded : Tree.parting.Loaded := ⟨"parting", .parting, by decide +kernel⟩

namespace Report

/-- The report on `Tree.parting` when content next starts there after the first arm and after the
keyword of the second. -/
def partingReport (afterArm afterKeyword : Position) : List Record :=
  let span (l c l' c' : Int) : Span := ⟨⟨l, c⟩, ⟨l', c'⟩⟩
  [⟨0, ⟨.caseTag, 1, span 1 0 5 3⟩,
    [(⟨.whenTag, 2, .emptyAt afterArm⟩, 1), (⟨.whenTag, 3, ⟨afterKeyword, ⟨3, 13⟩⟩⟩, 1),
      (⟨.elseTag, 4, .emptyAt ⟨5, 0⟩⟩, 0)]⟩]

/-- With the text, the first arm is placed after a comment, at the start of the second; without it,
where the first arm ends. -/
theorem positions_of_build_parting :
    let e : Evidence := ⟨.parting, .ofList [(1, 2), (2, 0), (3, 1), (4, 1)], .word⟩
    let text : Source := .ofText "case x\nwhen 1 # nothing\nwhen 2 then y\nelse\nend"
    Tree.parting.Loaded ∧
      (build e text e.memory).result = .ok (partingReport ⟨3, 0⟩ ⟨3, 12⟩) ∧
      (build e ⟨[]⟩ e.memory).result = .ok (partingReport ⟨2, 6⟩ ⟨3, 11⟩) ∧
      Site.Origin ⟨e.tree, text⟩ ⟨3, 0⟩ ∧ Site.Origin ⟨e.tree, text⟩ ⟨3, 12⟩ ∧
      e.tree.Bounds ⟨2, 6⟩ ∧ e.tree.Bounds ⟨3, 11⟩ := by
  intro e text
  have hr : (build e text e.memory).result = .ok (partingReport ⟨3, 0⟩ ⟨3, 12⟩) := by
    decide +kernel
  have hr' : (build e ⟨[]⟩ e.memory).result = .ok (partingReport ⟨2, 6⟩ ⟨3, 11⟩) := by
    decide +kernel
  have horigin := positions_of_build hr _ List.mem_cons_self
  have hbounds := positions_of_build hr' _ List.mem_cons_self
  refine ⟨Tree.parting_loaded, hr, hr', ?_, ?_, ?_, ?_⟩
  · exact (horigin ⟨.whenTag, 2, .emptyAt ⟨3, 0⟩⟩ (by decide) _ (.inl rfl)).1
  · exact (horigin ⟨.whenTag, 3, ⟨⟨3, 12⟩, ⟨3, 13⟩⟩⟩ (by decide) _ (.inl rfl)).1
  · exact (hbounds ⟨.whenTag, 2, .emptyAt ⟨2, 6⟩⟩ (by decide) _ (.inl rfl)).2 rfl
  · exact (hbounds ⟨.whenTag, 3, ⟨⟨3, 11⟩, ⟨3, 13⟩⟩⟩ (by decide) _ (.inl rfl)).2 rfl

end Report

end BranchTally
