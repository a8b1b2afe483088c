import BranchTally.Proofs.Report.Completeness
import Mathlib.Tactic.IntervalCases

/-! Where chains of conditionals and nested constructs are reported. From every conditional of a
chain the climb ends at its first and the descent at its last one, so that all that go on the chain
reach up to the same keyword or none does. A construct that is a branch of another one is placed
twice, as that branch and in its own record; both places are where its node is reported. -/

namespace BranchTally

open BranchTally.Flow Report

/-! ### Chains -/

/-- The style of a conditional. -/
def Construct.style? : Construct → Option Style
  | .conditional style .. => some style
  | _ => none

/-- What a conditional goes on with when its condition fails. -/
def Construct.whenFalse : Construct → Slot
  | .conditional _ _ _ whenFalse => whenFalse
  | _ => none

/-- The conditionals `c 0`, …, `c k`, each the false branch of the one before it. All but the first
go on the chain, and after the last it goes no further. -/
structure Tree.Chain (t : Tree) (c : Nat → NodeId) (k : Nat) : Prop where
  first : ∃ n style, t.nodes[c 0]? = some n ∧ n.construct.style? = some style ∧ style ≠ .chained
  next : ∀ i < k, ∃ n m, t.nodes[c i]? = some n ∧ n.construct.whenFalse = some (c (i + 1)) ∧
    t.nodes[c (i + 1)]? = some m ∧ m.construct.style? = some .chained
  last : ∃ n, t.nodes[c k]? = some n ∧ ∀ b m, n.construct.whenFalse = some b →
    t.nodes[b]? = some m → m.construct.style? ≠ some .chained

/-- The node that a construct reports in one of its places: a clause of a conditional, or the else
branch of a dispatch, after its arms. -/
def Construct.branchAt : Construct → Nat → Slot
  | .conditional _ _ whenTrue _, 0 => whenTrue
  | .conditional _ _ _ whenFalse, 1 => whenFalse
  | .dispatch _ arms otherwise, k => if k = arms.length then otherwise else none
  | _, _ => none

/-- The keyword that a chain reaches up to, from its first conditional to its last: the closing one
of the first, if the last has an empty body for its false branch. -/
def Tree.chainStop (t : Tree) (first last : NodeId) : Option Span := do
  let n ← t.nodes[last]?
  let m ← t.nodes[← n.construct.whenFalse]?
  guard (m.kind = .emptyBody)
  (← t.nodes[first]?).keyword? .closing

namespace Report.Site

variable {s : Site} {id b : Nat} {n m : Node}

theorem isChained_eq (hn : s.tree.nodes[id]? = some n) :
    s.isChained (some id) = .ok (decide (n.construct.style? = some .chained)) := by
  simp only [isChained, Tree.node_eq_ok.mpr hn, bind, Except.bind]
  cases hc : n.construct with
  | conditional style => cases style <;> rfl
  | _ => rfl

theorem falseBranch_eq {style : Style} (hn : s.tree.nodes[id]? = some n)
    (hs : n.construct.style? = some style) : s.falseBranch id = .ok n.construct.whenFalse := by
  simp only [falseBranch, Tree.node_eq_ok.mpr hn, bind, Except.bind]
  cases hc : n.construct with
  | conditional => rfl
  | _ => simp [hc, Construct.style?] at hs

theorem present_of_whenFalse (hf : n.construct.whenFalse = some b) : b ∈ n.construct.present := by
  cases hc : n.construct with
  | conditional style condition whenTrue whenFalse =>
    have hw : whenFalse = some b := by simpa [hc, Construct.whenFalse] using hf
    simp [hw, Construct.present]
  | _ => simp [hc, Construct.whenFalse] at hf

section Chain

variable {c : Nat → Nat} {k : Nat} (h : s.tree.Linked) (hc : s.tree.Chain c k)

include h hc

/-- Another conditional of a chain is a child of the one before it, and goes on the chain. -/
theorem child_of_chain {i : Nat} (hi : i < k) :
    c i < c (i + 1) ∧ ∃ m, s.tree.nodes[c (i + 1)]? = some m ∧ m.parent = some (c i) ∧
      m.construct.style? = some .chained := by
  obtain ⟨n, m, hn, hf, hm, hs⟩ := hc.next i hi
  have hslot := present_of_whenFalse hf
  exact ⟨(h.lt_of_present hn hslot).1, m, hm, h.parent_eq hn hslot hm, hs⟩

/-- The place of a conditional in its chain is no higher than its number. -/
theorem le_of_chain {i : Nat} (hi : i ≤ k) : i ≤ c i := by
  induction i with
  | zero => exact Nat.zero_le _
  | succ i ih =>
    have := (child_of_chain h hc hi).1
    have := ih (by omega)
    omega

/-- Each conditional of a chain has a style, and goes on with the next one or is the last. -/
theorem style_of_chain {i : Nat} (hi : i ≤ k) :
    ∃ n style, s.tree.nodes[c i]? = some n ∧ n.construct.style? = some style ∧
      (0 < i → style = .chained) := by
  cases i with
  | zero =>
    obtain ⟨n, style, hn, hs, -⟩ := hc.first
    exact ⟨n, style, hn, hs, fun h0 => absurd h0 (Nat.lt_irrefl 0)⟩
  | succ i =>
    obtain ⟨-, m, hm, -, hs⟩ := child_of_chain h hc hi
    exact ⟨m, .chained, hm, hs, fun _ => rfl⟩

/-- The climb ends at the first conditional. The induction goes up the chain. -/
theorem climb_chain {i levels : Nat} (hi : i ≤ k) (hl : i < levels) :
    s.climb levels (c i) = .ok (c 0) := by
  induction i generalizing levels with
  | zero =>
    obtain ⟨levels, rfl⟩ : ∃ l, levels = l + 1 := ⟨levels - 1, by omega⟩
    obtain ⟨n, style, hn, hs, hne⟩ := hc.first
    simp [climb, isChained_eq hn, hs, hne, bind, Except.bind, pure, Except.pure]
  | succ i ih =>
    obtain ⟨levels, rfl⟩ : ∃ l, levels = l + 1 := ⟨levels - 1, by omega⟩
    obtain ⟨-, m, hm, hp, hs⟩ := child_of_chain h hc hi
    have hup : s.climb levels (c i) = .ok (c 0) := ih (by omega) (by omega)
    simp [climb, isChained_eq hm, hs, Tree.parent_eq_ok hm, hp, hup, bind, Except.bind]

/-- The descent ends at the last conditional. The induction goes down the chain. -/
theorem descend_chain {i j levels : Nat} (hi : i + j = k) (hl : j < levels) :
    s.descend levels (c i) = .ok (c k) := by
  obtain ⟨levels, rfl⟩ : ∃ l, levels = l + 1 := ⟨levels - 1, by omega⟩
  induction j generalizing i levels with
  | zero =>
    obtain rfl : i = k := hi
    obtain ⟨n, style, hn, hs, -⟩ := style_of_chain h hc (Nat.le_refl i)
    obtain ⟨n', hn', hstop⟩ := hc.last
    cases hn.symm.trans hn'
    cases hf : n.construct.whenFalse with
    | none => simp [descend, falseBranch_eq hn hs, hf, bind, Except.bind, pure, Except.pure]
    | some b =>
      obtain ⟨m, hm, -⟩ := h.child_of_present hn (c := b) (present_of_whenFalse hf)
      simp [descend, falseBranch_eq hn hs, hf, isChained_eq hm, hstop b m hf hm, bind, Except.bind,
        pure, Except.pure]
  | succ j ih =>
    obtain ⟨n, style, hn, hs, -⟩ := style_of_chain h hc (i := i) (by omega)
    obtain ⟨n', m, hn', hf, hm, hms⟩ := hc.next i (by omega)
    cases hn.symm.trans hn'
    obtain ⟨levels, rfl⟩ : ∃ l, levels = l + 1 := ⟨levels - 1, by omega⟩
    have hdown : s.descend (levels + 1) (c (i + 1)) = .ok (c k) := ih (by omega) levels (by omega)
    rw [descend, falseBranch_eq hn hs, hf, ← hdown]
    simp only [isChained_eq hm, hms, bind, Except.bind, decide_true, if_true]

theorem outermost_chain {i : Nat} (hi : i ≤ k) : s.outermost (c i) = .ok (c 0) := by
  have hle := le_of_chain h hc hi
  obtain ⟨n, -, hn, -⟩ := style_of_chain h hc hi
  have hlt : c i < s.tree.size := Tree.size_of_node hn
  exact climb_chain h hc hi (by omega)

theorem deepest_chain {i : Nat} (hi : i ≤ k) : s.deepest (c i) = .ok (c k) := by
  have hle := le_of_chain h hc (Nat.le_refl k)
  obtain ⟨n, -, hn, -⟩ := style_of_chain h hc (Nat.le_refl k)
  have hlt : c k < s.tree.size := Tree.size_of_node hn
  exact descend_chain h hc (Nat.add_sub_cancel' hi) (by omega)

/-- What goes on a chain is reported where it is written, or up to where the chain reaches. -/
theorem reportedSpan_chain {i : Nat} (h0 : 0 < i) (hi : i ≤ k) {span : Span}
    (hn : s.tree.nodes[c i]? = some n) (hspan : n.span = some span) :
    s.reportedSpan (c i) = .ok ((s.tree.chainStop (c 0) (c k)).elim span
      fun closing => span.withStop closing.start) := by
  obtain ⟨n', style, hn', hs, hstyle⟩ := style_of_chain h hc hi
  cases hn.symm.trans hn'
  obtain ⟨top, -, htop, -⟩ := style_of_chain h hc (Nat.zero_le k)
  obtain ⟨x, style', hx, hxs, -⟩ := style_of_chain h hc (Nat.le_refl k)
  have hwritten : s.tree.span (c i) = .ok span := by
    simp [Tree.span, Tree.node_eq_ok.mpr hn, hspan, bind, Except.bind, pure, Except.pure]
  have hchained : s.isChained (some (c i)) = .ok true := by
    simp [isChained_eq hn, hs, hstyle h0]
  have hkeyword : s.tree.keyword? (c 0) .closing = .ok (top.keyword? .closing) := by
    simp [Tree.keyword?, Tree.node_eq_ok.mpr htop, bind, Except.bind, pure, Except.pure]
  simp only [reportedSpan, hwritten, hchained, deepest_chain h hc hi, falseBranch_eq hx hxs, bind,
    Except.bind, if_true]
  cases hf : x.construct.whenFalse with
  | none => simp [Tree.isEmptyBody, Tree.chainStop, hx, hf, pure, Except.pure]
  | some b =>
    obtain ⟨m, hm, -⟩ := h.child_of_present hx (present_of_whenFalse hf)
    rw [isEmptyBody_eq_ok hm]
    by_cases hk : m.kind = .emptyBody
    · have hstop : s.tree.chainStop (c 0) (c k) = top.keyword? .closing := by
        simp [Tree.chainStop, hx, hf, hm, hk, htop]
      simp only [hk, decide_true, if_true, outermost_chain h hc hi, hkeyword, hstop]
      cases top.keyword? .closing <;> rfl
    · simp [Tree.chainStop, hx, hf, hm, hk, pure, Except.pure]

end Chain

/-! ### Branches that are constructs -/

theorem reportedSpan_of_unchained (hn : s.tree.nodes[id]? = some n)
    (hs : n.construct.style? ≠ some .chained) : s.reportedSpan id = s.tree.span id := by
  simp only [reportedSpan, isChained_eq hn, hs, bind, Except.bind]
  cases s.tree.span id <;> rfl

theorem resolve_of_content {marker : Option Span} (hm : s.tree.nodes[b]? = some m)
    (hk : m.kind ≠ .emptyBody) : s.resolve id (some b) marker = s.reportedSpan b := by
  simp [resolve, isEmptyBody_eq_ok hm, hk, bind, Except.bind]

end Report.Site

namespace Report

/-- A plan that places its construct where the node is reported, and each branch with content where
the node of the branch is. -/
structure Plan.Places (p : Plan) (s : Site) (id : NodeId) (n : Node) : Prop where
  condition : s.reportedSpan id = .ok p.span
  branch : ∀ {k b : Nat} {m : Node}, n.construct.branchAt k = some b →
    s.tree.nodes[b]? = some m → m.kind ≠ .emptyBody →
    ∃ branch, p.branches[k]? = some branch ∧ ∀ x, branch = .ok x → s.reportedSpan b = .ok x.span

namespace Site

variable {s : Site} {id b : Nat} {n m : Node} {p : Plan} {x : Branch} {tag : Tag}

theorem span_of_reached {marker : Option Span} (hm : s.tree.nodes[b]? = some m)
    (hk : m.kind ≠ .emptyBody) (hx : reached tag (s.resolve id (some b) marker) b = .ok x) :
    s.reportedSpan b = .ok x.span := by
  obtain ⟨place, hplace, rfl⟩ := reached_eq_ok.mp hx
  exact resolve_of_content hm hk ▸ hplace

theorem span_of_planClause {marker : Except Fault (Option Span)} (hm : s.tree.nodes[b]? = some m)
    (hk : m.kind ≠ .emptyBody) (hx : s.planClause id tag b marker = .ok x) :
    s.reportedSpan b = .ok x.span := by
  obtain ⟨place, hplace, rfl⟩ := reached_eq_ok.mp hx
  obtain ⟨_, -, hplace⟩ := bind_eq_ok.mp hplace
  exact resolve_of_content hm hk ▸ hplace

theorem conditional_places {style : Style} {condition whenTrue whenFalse : Slot}
    (hc : n.construct = .conditional style condition whenTrue whenFalse)
    (h : s.planConditional id n style condition whenTrue whenFalse = .ok p) : p.Places s id n := by
  obtain ⟨_, -, h⟩ := bind_eq_ok.mp h
  obtain ⟨held, hheld, h⟩ := bind_eq_ok.mp h
  obtain ⟨failed, hfailed, h⟩ := bind_eq_ok.mp h
  obtain ⟨span, hspan, hp⟩ := bind_eq_ok.mp h
  obtain rfl := Tree.required_eq_ok.mp hheld
  obtain rfl := Tree.required_eq_ok.mp hfailed
  have hclauses : ∃ tag tag' first second, p.span = span ∧ p.branches =
      [s.planClause id tag held first, s.planClause id tag' failed second] := by
    simp only at hp
    split at hp <;> cases hp <;> exact ⟨_, _, _, _, rfl, rfl⟩
  obtain ⟨tag, tag', first, second, rfl, hclauses⟩ := hclauses
  refine ⟨hspan, fun {k b m} hb hm hk => ?_⟩
  rw [hc] at hb
  rw [hclauses]
  rcases k with _ | _ | k
  · obtain rfl : held = b := Option.some.inj hb
    exact ⟨_, rfl, fun x hx => span_of_planClause hm hk hx⟩
  · obtain rfl : failed = b := Option.some.inj hb
    exact ⟨_, rfl, fun x hx => span_of_planClause hm hk hx⟩
  · cases hb

section Unchained

variable (hn : s.tree.nodes[id]? = some n)

include hn

theorem dispatch_places {subject otherwise : Slot} {arms : List NodeId}
    (hc : n.construct = .dispatch subject arms otherwise)
    (h : s.planDispatch id n arms otherwise = .ok p) : p.Places s id n := by
  obtain ⟨unmatched, ho, h⟩ := bind_eq_ok.mp h
  obtain ⟨span, hspan, hp⟩ := bind_eq_ok.mp h
  obtain rfl := Tree.required_eq_ok.mp ho
  cases hp
  have hreported := reportedSpan_of_unchained hn (by simp [hc, Construct.style?])
  refine ⟨hreported.trans hspan, fun {k b m} hb hm hk => ?_⟩
  rw [hc, Construct.branchAt] at hb
  split at hb
  next hlast =>
    obtain rfl : unmatched = b := Option.some.inj hb
    exact ⟨_, by simp [hlast]; rfl, fun x hx => span_of_reached hm hk hx⟩
  next => cases hb

/-- A construct whose branches are no clauses is reported where it is written. -/
theorem places_of_span (hs : n.construct.style? = none) (hb : ∀ k, n.construct.branchAt k = none)
    (hspan : s.tree.span id = .ok p.span) : p.Places s id n where
  condition := (reportedSpan_of_unchained hn (by simp [hs])).trans hspan
  branch {k _ _} h := by simp [hb k] at h

theorem shortCircuit_places {op : Connective} {left right : Slot}
    (hc : n.construct = .shortCircuit op left right)
    (h : s.planShortCircuit id n op left right = .ok p) : p.Places s id n := by
  obtain ⟨_, -, h⟩ := bind_eq_ok.mp h
  obtain ⟨_, -, h⟩ := bind_eq_ok.mp h
  obtain ⟨span, hspan, hp⟩ := bind_eq_ok.mp h
  refine places_of_span hn (by rw [hc]; rfl) (fun k => by rw [hc]; rfl) ?_
  cases op <;> cases hp <;> exact hspan

theorem safeNavigation_places {receiver : Slot} {arguments : List NodeId}
    (hc : n.construct = .safeNavigation receiver arguments)
    (h : s.planSafeNavigation id n receiver = .ok p) : p.Places s id n := by
  obtain ⟨_, -, h⟩ := bind_eq_ok.mp h
  obtain ⟨span, hspan, hp⟩ := bind_eq_ok.mp h
  cases hp
  exact places_of_span hn (by rw [hc]; rfl) (fun k => by rw [hc]; rfl) hspan

theorem loop_places {polarity : Polarity} {test : LoopTest} {condition body : Slot}
    (hc : n.construct = .loop polarity test condition body)
    (h : s.planLoop id n polarity test condition body = .ok p) : p.Places s id n := by
  obtain ⟨_, -, h⟩ := bind_eq_ok.mp h
  obtain ⟨_, -, h⟩ := bind_eq_ok.mp h
  obtain ⟨span, hspan, hp⟩ := bind_eq_ok.mp h
  cases hp
  exact places_of_span hn (by rw [hc]; rfl) (fun k => by rw [hc]; rfl) hspan

end Unchained

theorem places_of_plan (h : s.plan? id = .ok (some p)) :
    ∃ n, s.tree.nodes[id]? = some n ∧ p.Places s id n := by
  obtain ⟨n, hn, -, hplanned⟩ := planned_of_plan? h
  refine ⟨n, hn, ?_⟩
  cases hplanned p rfl with
  | conditional hc h => exact conditional_places hc h
  | dispatch hc h => exact dispatch_places hn hc h
  | shortCircuit hc h => exact shortCircuit_places hn hc h
  | safeNavigation hc h => exact safeNavigation_places hn hc h
  | loop hc h => exact loop_places hn hc h

end Site

/-- A record of a report places its condition and its branches as they were planned. -/
theorem plan_of_record {e : Evidence} {source : Source} {m : Memory} {rs : List Record} {r : Record}
    (h : (build e source m).result = .ok rs) (hr : r ∈ rs) :
    ∃ (p : Plan) (bs : List Branch), Site.plan? ⟨e.tree, source⟩ r.node = .ok (some p) ∧
      p.span = r.condition.span ∧ p.branches = bs.map .ok ∧
      r.branches.map (·.1.span) = bs.map (·.span) := by
  obtain ⟨ts, hts, rfl⟩ := survey_of_build h
  obtain ⟨t, ht, hnode, -, hspan, hbranches⟩ := exists_of_mem_number hr
  obtain ⟨p, hp, -, hps, hb⟩ := (outlined_of_survey hts).plan (List.mem_map_of_mem ht)
  refine ⟨p, t.branches.map (·.1), hnode ▸ hp, hps.trans hspan.symm, hb, ?_⟩
  have hspans := congrArg (List.map Prod.snd) hbranches
  rw [List.map_map, List.map_map] at hspans
  rw [List.map_map]
  exact hspans

/-- On a loaded tree, the climb from every conditional of a chain ends at the first and the descent
at the last, and all that go on the chain are reported up to the same keyword, or all where they are
written. In every report a construct that is a clause of a conditional or the else branch of a
dispatch has a record, whose condition is placed where the branch is. -/
theorem places_of_chains_and_branches {t : Tree} (ht : t.Loaded) (source : Source) :
    let s : Site := ⟨t, source⟩
    (∀ c k, t.Chain c k →
      (∀ i ≤ k, s.outermost (c i) = .ok (c 0) ∧ s.deepest (c i) = .ok (c k)) ∧
      ∀ i n span, 0 < i → i ≤ k → t.nodes[c i]? = some n → n.span = some span →
        s.reportedSpan (c i) = .ok ((t.chainStop (c 0) (c k)).elim span
          fun closing => span.withStop closing.start)) ∧
    ∀ counters width m rs, (build ⟨t, counters, width⟩ source m).result = .ok rs →
      ∀ r ∈ rs, ∀ n k b x, t.nodes[r.node]? = some n → n.construct.branchAt k = some b →
        t.nodes[b]? = some x → x.kind.isBranching →
        b ∈ rs.map (·.node) ∧ ∀ r' ∈ rs, r'.node = b →
          ∃ entry, r.branches[k]? = some entry ∧ entry.1.span = r'.condition.span := by
  intro s
  have hl : s.tree.Linked := ht.linked
  refine ⟨fun c k hc => ⟨fun i hi => ?_, fun i n span h0 hi hn hspan => ?_⟩, ?_⟩
  · exact ⟨Site.outermost_chain hl hc hi, Site.deepest_chain hl hc hi⟩
  · exact Site.reportedSpan_chain hl hc h0 hi hn hspan
  · intro counters width m rs h r hr n k b x hn hb hx hk
    refine ⟨?_, fun r' hr' hnode => ?_⟩
    · rw [nodes_of_build h]
      exact (mem_branching ht).mpr ⟨x, hx, hk⟩
    · obtain ⟨p, bs, hp, -, hbs, hspans⟩ := plan_of_record h hr
      obtain ⟨p', -, hp', hspan', -, -⟩ := plan_of_record h hr'
      have hcontent : x.kind ≠ .emptyBody := by
        intro he
        rw [he] at hk
        cases hk
      obtain ⟨n', hn', hplaces⟩ := Site.places_of_plan (s := s) hp
      cases hn.symm.trans hn'
      obtain ⟨branch, hbranch, hplace⟩ := hplaces.branch hb hx hcontent
      rw [hbs, List.getElem?_map, Option.map_eq_some_iff] at hbranch
      obtain ⟨y, hy, rfl⟩ := hbranch
      have hentry := congrArg (·[k]?) hspans
      simp only [List.getElem?_map, hy, Option.map_some] at hentry
      obtain ⟨entry, hentry, heq⟩ := Option.map_eq_some_iff.mp hentry
      refine ⟨entry, hentry, heq.trans ?_⟩
      -- the node is reported in one place
      obtain ⟨_, -, hown⟩ := Site.places_of_plan (s := s) (hnode ▸ hp')
      rw [← hspan']
      exact Except.ok.inj ((hplace y rfl).symm.trans hown.condition)

end Report

/-- A chain of three conditionals without an else clause: `if a then x elsif b then y elsif c then z
end`, with each part on a line of its own. -/
def Dump.cascading : Dump :=
  let span (l c l' c' : Int) : Option Span := some ⟨⟨l, c⟩, ⟨l', c'⟩⟩
  .node "if" 1 (span 1 0 7 3) [("entry", "1"), ("truthy", "2"), ("end", "7:0-7:3")]
    [.node "lvar" 1 (span 1 3 1 4) [] [],
      .node "send" 2 (span 2 2 2 3) [] [],
      .node "if" 3 (span 3 0 6 3) [("style", "elsif"), ("truthy", "3")]
        [.node "lvar" 3 (span 3 6 3 7) [] [],
          .node "send" 4 (span 4 2 4 3) [] [],
          .node "if" 5 (span 5 0 6 3) [("style", "elsif"), ("truthy", "4")]
            [.node "lvar" 5 (span 5 6 5 7) [] [],
              .node "send" 6 (span 6 2 6 3) [] [],
              .node "empty" 7 none [] []]]]

def Tree.cascading : Tree :=
  let span (l c l' c' : Int) : Option Span := some ⟨⟨l, c⟩, ⟨l', c'⟩⟩
  let plain (type : String) (span : Option Span) (parent index : Nat) : Node :=
    ⟨.expression type [], span, some parent, index, [], [], []⟩
  ⟨#[⟨.conditional .plain (some 1) (some 2) (some 3), span 1 0 7 3, none, 0, [1, 2, 3],
      [(.truthy, 2), (.entry, 1)], [(.closing, ⟨⟨7, 0⟩, ⟨7, 3⟩⟩)]⟩,
    plain "lvar" (span 1 3 1 4) 0 0,
    plain "send" (span 2 2 2 3) 0 1,
    ⟨.conditional .chained (some 4) (some 5) (some 6), span 3 0 6 3, some 0, 2, [4, 5, 6],
      [(.truthy, 3)], []⟩,
    plain "lvar" (span 3 6 3 7) 3 0,
    plain "send" (span 4 2 4 3) 3 1,
    ⟨.conditional .chained (some 7) (some 8) (some 9), span 5 0 6 3, some 3, 2, [7, 8, 9],
      [(.truthy, 4)], []⟩,
    plain "lvar" (span 5 6 5 7) 6 0,
    plain "send" (span 6 2 6 3) 6 1,
    ⟨.emptyBody, none, some 6, 2, [], [], []⟩]⟩

theorem Tree.cascading_loaded : Tree.cascading.Loaded :=
  ⟨"cascading", .cascading, by decide +kernel⟩

theorem Tree.cascading_chain : Tree.cascading.Chain (3 * ·) 2 where
  first := ⟨_, .plain, rfl, rfl, by decide⟩
  next i hi := by
    interval_cases i <;> exact ⟨_, _, rfl, rfl, rfl, rfl⟩
  last := by
    refine ⟨_, rfl, fun b m hb hm => ?_⟩
    cases hb
    cases hm
    decide

namespace Report

def cascadingReport : List Record :=
  let span (l c l' c' : Int) : Span := ⟨⟨l, c⟩, ⟨l', c'⟩⟩
  [⟨0, ⟨.ifTag, 1, span 1 0 7 3⟩,
      [(⟨.thenTag, 2, span 2 2 2 3⟩, 1), (⟨.elseTag, 3, span 3 0 7 0⟩, 2)]⟩,
    ⟨3, ⟨.ifTag, 4, span 3 0 7 0⟩,
      [(⟨.thenTag, 5, span 4 2 4 3⟩, 1), (⟨.elseTag, 6, span 5 0 7 0⟩, 1)]⟩,
    ⟨6, ⟨.ifTag, 7, span 5 0 7 0⟩,
      [(⟨.thenTag, 8, span 6 2 6 3⟩, 0), (⟨.elseTag, 9, span 5 0 7 0⟩, 1)]⟩]

/-- Both conditionals that go on the chain are reported up to the last line. -/
theorem places_of_chains_and_branches_cascading :
    let s : Site := ⟨.cascading, ⟨[]⟩⟩
    let e : Evidence := ⟨.cascading, .ofList [(1, 3), (2, 1), (3, 1), (4, 0)], .word⟩
    s.outermost 6 = .ok 0 ∧ s.deepest 3 = .ok 6 ∧
      s.reportedSpan 3 = .ok ⟨⟨3, 0⟩, ⟨7, 0⟩⟩ ∧ s.reportedSpan 6 = .ok ⟨⟨5, 0⟩, ⟨7, 0⟩⟩ ∧
      (build e ⟨[]⟩ e.memory).result = .ok cascadingReport ∧
      ∀ r ∈ cascadingReport, r.node = 0 → ∀ r' ∈ cascadingReport, r'.node = 3 →
        ∃ entry, r.branches[1]? = some entry ∧ entry.1.span = r'.condition.span := by
  intro s e
  obtain ⟨hchains, hbranches⟩ := places_of_chains_and_branches Tree.cascading_loaded ⟨[]⟩
  obtain ⟨hends, hspans⟩ := hchains _ 2 Tree.cascading_chain
  have hr : (build e ⟨[]⟩ e.memory).result = .ok cascadingReport := by decide +kernel
  refine ⟨(hends 2 (by decide)).1, (hends 1 (by decide)).2,
    hspans 1 _ _ (by decide) (by decide) rfl rfl, hspans 2 _ _ (by decide) (by decide) rfl rfl, hr,
    fun r hmem hnode r' hmem' hnode' => ?_⟩
  exact (hbranches e.counters e.width e.memory _ hr r hmem _ 1 3 _ (by rw [hnode]; rfl) rfl rfl
    rfl).2 r' hmem' hnode'

end Report

end BranchTally
