import BranchTally.Proofs.Flow.Bare
import BranchTally.Proofs.Report.Outline

/-! A report keeps places and counts apart. The places come from the tree and the text alone, so
that reports on different counts of one tree differ only in the counts. The counts come from the
bare form of the tree, so that reports on trees that are written in different places differ only in
the places. -/

namespace BranchTally

open BranchTally.Flow Flow.Derivation Report

/-! ### Members of related lists -/

theorem exists_left_of_forall₂ {α β : Type} {R : α → β → Prop} {xs : List α} {ys : List β} {y : β}
    (h : List.Forall₂ R xs ys) (hy : y ∈ ys) : ∃ x ∈ xs, R x y := by
  induction h with
  | nil => cases hy
  | cons hr _ ih =>
    rcases List.mem_cons.mp hy with rfl | hy
    · exact ⟨_, List.mem_cons_self, hr⟩
    · obtain ⟨x, hx, hr⟩ := ih hy
      exact ⟨x, List.mem_cons_of_mem _ hx, hr⟩

theorem exists_right_of_forall₂ {α β : Type} {R : α → β → Prop} {xs : List α} {ys : List β} {x : α}
    (h : List.Forall₂ R xs ys) (hx : x ∈ xs) : ∃ y ∈ ys, R x y :=
  exists_left_of_forall₂ (R := flip R) h.flip hx

/-! ### Schemes of bare trees -/

@[simp] theorem Tree.bare_armBody? (t : Tree) (arm : NodeId) :
    t.bare.armBody? arm = t.armBody? arm := by
  unfold armBody?
  rw [bare_getElem?]
  cases t.nodes[arm]? <;> rfl

@[simp] theorem Construct.scheme_bare (c : Construct) (t : Tree) (id : NodeId) :
    c.scheme t.bare id = c.scheme t id := by
  simp only [scheme, Tree.bare_armBody?]

namespace Report

variable {e : Evidence} {source : Source} {id : NodeId} {ids : List NodeId}

/-! ### Counts of bare trees -/

theorem Tally.bare_count (tally : Tally) (e : Evidence) (id : NodeId) :
    tally.count e.bare id = (tally.count e id).mapFault Fault.bare := by
  cases tally with
  | derived q => rfl
  | hits role =>
    simp only [count, Evidence.hits, Evidence.bare_tree, Tree.bare_node, mapFault_lift]
    cases e.tree.node id with
    | error fault => rfl
    | ok n =>
      show liftM (Except.ok (e.bare.reading n.bare role)) = _
      rw [e.bare_reading]
      rfl

/-- A branch of a scheme is counted this often. -/
def Counts (e : Evidence) (id : NodeId) (out : Tag × Option Tally) (n : Int) : Prop :=
  ∃ tally, out.2 = some tally ∧ (tally.count e id).run e.answer = .ok n

theorem counts_rightUnique (e : Evidence) (id : NodeId) : Relator.RightUnique (Counts e id) := by
  rintro out n n' ⟨tally, ht, hn⟩ ⟨tally', ht', hn'⟩
  cases ht.symm.trans ht'
  exact Except.ok.inj (hn.symm.trans hn')

/-- Branches that can be placed have the counts of the scheme that they follow. -/
theorem counts_of_countBranches {branches : List (Except Fault Branch)}
    {outs : List (Tag × Option Tally)} {xs : List (Branch × Int)}
    (hb : List.Forall₂ Promises branches outs)
    (h : (countBranches e id branches).run e.answer = .ok xs) :
    List.Forall₂ (Counts e id) outs (xs.map (·.2)) := by
  induction hb generalizing xs with
  | nil =>
    cases h
    exact .nil
  | cons hp _ ih =>
    obtain ⟨b, hb, h⟩ := Evidence.run_bind_eq_ok.mp h
    obtain ⟨n, hn, h⟩ := Evidence.run_bind_eq_ok.mp h
    obtain ⟨ys, hys, hxs⟩ := Evidence.run_bind_eq_ok.mp h
    cases hxs
    rw [run_lift] at hb
    exact .cons ⟨b.tally, by rw [← hp b hb], hn⟩ (ih hys)

/-- A branch is counted as over the bare tree. -/
theorem Counts.bare {out : Tag × Option Tally} {n : Int} (h : Counts e id out n) :
    Counts e.bare id out n := by
  obtain ⟨tally, ht, hn⟩ := h
  refine ⟨tally, ht, ?_⟩
  rw [tally.bare_count, e.bare_run, hn]
  rfl

/-- A construct of a tally was planned, and counted by its plan. -/
theorem plan_of_mem_tally {ts : List Tallied} {x : Tallied} (h : tally e source ids = .ok ts)
    (hx : x ∈ ts) : ∃ (n : Node) (p : Plan), e.tree.nodes[x.node]? = some n ∧
      p.Follows ⟨e.tree, source⟩ x.node n ∧ (p.count e).run e.answer = .ok x := by
  induction ids generalizing ts with
  | nil =>
    cases h
    cases hx
  | cons id ids ih =>
    rcases tally_cons_eq_ok.mp h with ⟨-, h⟩ | ⟨p, y, ys, hp, hy, hys, rfl⟩
    · exact ih h hx
    rcases List.mem_cons.mp hx with rfl | hx
    · obtain ⟨n, hn, -, hsome⟩ := Site.plan?_eq_ok hp
      have hf := hsome p rfl
      have hnode : x.node = id := by
        obtain ⟨_, -, hx⟩ := Evidence.run_bind_eq_ok.mp hy
        cases hx
        exact congrArg Label.id hf.label
      exact ⟨n, p, hnode ▸ hn, hnode ▸ hf, hy⟩
    · exact ih hys hx

/-- The counts of a record are those of the scheme of its construct. -/
theorem counts_of_record (hl : e.tree.Linked) {m : Memory} (hm : m.Sound e) {rs : List Record}
    (h : (build e source m).result = .ok rs) {r : Record} (hr : r ∈ rs) :
    ∃ n tag outs, e.tree.nodes[r.node]? = some n ∧
      n.construct.scheme e.tree r.node = some (tag, outs) ∧
      List.Forall₂ (Counts e r.node) outs r.counts := by
  rw [build_eq_tally hl source hm] at h
  obtain ⟨ts, hts, rfl⟩ := map_eq_ok.mp h
  obtain ⟨x, hx, hnode, hcounts⟩ := counts_of_mem_number hr
  obtain ⟨n, p, hn, hf, hp⟩ := plan_of_mem_tally hts hx
  obtain ⟨outs, hscheme, houts⟩ := hf.scheme
  obtain ⟨ys, hys, hx⟩ := Evidence.run_bind_eq_ok.mp hp
  cases hx
  rw [hf.label] at hys
  rw [hnode, hcounts]
  exact ⟨n, p.tag, outs, hn, hscheme, counts_of_countBranches houts hys⟩

/-- The counts of the constructs among some nodes, by the schemes of those that branch. -/
inductive Counted (e : Evidence) : List NodeId → List (List Int) → Prop
  | nil : Counted e [] []
  | skip {id : NodeId} {ids : List NodeId} {cs : List (List Int)} {n : Node} :
    e.tree.nodes[id]? = some n → n.construct.scheme e.tree id = none → Counted e ids cs →
    Counted e (id :: ids) cs
  | take {id : NodeId} {ids : List NodeId} {ns : List Int} {cs : List (List Int)} {n : Node}
    {tag : Tag} {outs : List (Tag × Option Tally)} :
    e.tree.nodes[id]? = some n → n.construct.scheme e.tree id = some (tag, outs) →
    List.Forall₂ (Counts e id) outs ns → Counted e ids cs → Counted e (id :: ids) (ns :: cs)

/-- The constructs are counted in one way at most. -/
theorem Counted.unique {cs ds : List (List Int)} (hc : Counted e ids cs) (hd : Counted e ids ds) :
    cs = ds := by
  induction hc generalizing ds with
  | nil =>
    cases hd
    rfl
  | skip hn hs _ ih =>
    cases hd with
    | skip _ _ hd => exact ih hd
    | take hn' hs' =>
      cases hn.symm.trans hn'
      cases hs.symm.trans hs'
  | take hn hs ho _ ih =>
    cases hd with
    | skip hn' hs' =>
      cases hn.symm.trans hn'
      cases hs.symm.trans hs'
    | take hn' hs' ho' hd =>
      cases hn.symm.trans hn'
      cases hs.symm.trans hs'
      rw [List.right_unique_forall₂' (counts_rightUnique e _) ho ho', ih hd]

/-- The constructs of a tally are counted as over the bare tree. -/
theorem counted_of_tally {ts : List Tallied} (h : tally e source ids = .ok ts) :
    Counted e.bare ids (ts.map Tallied.counts) := by
  induction ids generalizing ts with
  | nil =>
    cases h
    exact .nil
  | cons id ids ih =>
    have hbare : ∀ n, e.tree.nodes[id]? = some n → e.bare.tree.nodes[id]? = some n.bare := by
      intro n hn
      rw [e.bare_tree, e.tree.bare_getElem?, hn]
      rfl
    rcases tally_cons_eq_ok.mp h with ⟨hp, h⟩ | ⟨plan, x, xs, hp, hx, hxs, rfl⟩
    · obtain ⟨n, hn, hnone, -⟩ := Site.plan?_eq_ok hp
      refine .skip (hbare n hn) (Option.not_isSome_iff_eq_none.mp ?_) (ih h)
      rw [Construct.isSome_scheme, ← Node.kind, n.bare_kind, hnone rfl]
      exact Bool.false_ne_true
    · obtain ⟨n, hn, -, hsome⟩ := Site.plan?_eq_ok hp
      have hf := hsome plan rfl
      obtain ⟨outs, hscheme, houts⟩ := hf.scheme
      obtain ⟨ys, hys, hx⟩ := Evidence.run_bind_eq_ok.mp hx
      cases hx
      rw [hf.label] at hys
      exact .take (hbare n hn) ((n.construct.scheme_bare _ _).trans hscheme)
        ((counts_of_countBranches houts hys).imp fun _ _ => Counts.bare) (ih hxs)

/-! ### Two reports -/

/-- Two reports on one tree differ at most in their counts. -/
theorem outline_of_build {e e' : Evidence} (he : e.tree = e'.tree) {m m' : Memory}
    {rs rs' : List Record} (h : (build e source m).result = .ok rs)
    (h' : (build e' source m').result = .ok rs') :
    rs.map Record.outline = rs'.map Record.outline := by
  obtain ⟨ts, hts, rfl⟩ := survey_of_build h
  obtain ⟨ts', hts', rfl⟩ := survey_of_build h'
  have hout := outlined_of_survey hts
  rw [he] at hout
  exact number_outline (hout.unique (outlined_of_survey hts')) 1

/-- Two reports on trees that differ only in where they are written have the same counts. -/
theorem counts_of_build {e e' : Evidence} {source source' : Source} (he : e.bare = e'.bare)
    (hl : e.tree.Linked) (hl' : e'.tree.Linked) {m m' : Memory} (hm : m.Sound e)
    (hm' : m'.Sound e') {rs rs' : List Record} (h : (build e source m).result = .ok rs)
    (h' : (build e' source' m').result = .ok rs') :
    rs.map Record.counts = rs'.map Record.counts := by
  rw [build_eq_tally hl source hm] at h
  rw [build_eq_tally hl' source' hm'] at h'
  obtain ⟨ts, hts, rfl⟩ := map_eq_ok.mp h
  obtain ⟨ts', hts', rfl⟩ := map_eq_ok.mp h'
  have hc := counted_of_tally hts
  have hpre : e.tree.preorder = e'.tree.preorder := by
    rw [← e.tree.bare_preorder, ← e'.tree.bare_preorder]
    exact congrArg (·.tree.preorder) he
  rw [he, hpre] at hc
  rw [number_counts, number_counts]
  exact hc.unique (counted_of_tally hts')

/-- On one tree, reports on different counters name the same places in the same way, whatever is
remembered; on loaded trees that differ only in where they are written, reports on the same
counters have the same counts, whatever was asked before, since lookups leave a sound memory
sound. -/
theorem outline_and_counts_of_build :
    (∀ (t : Tree) (source : Source) (a b : Counters) (width : Width) (m m' : Memory)
      (rs rs' : List Record), (build ⟨t, a, width⟩ source m).result = .ok rs →
      (build ⟨t, b, width⟩ source m').result = .ok rs' →
      rs.map Record.outline = rs'.map Record.outline) ∧
    ∀ (t t' : Tree) (source source' : Source) (counters : Counters) (width : Width)
      (m m' : Memory) (rs rs' : List Record), t.Loaded → t'.Loaded → t.bare = t'.bare →
      m.Sound ⟨t, counters, width⟩ → m'.Sound ⟨t', counters, width⟩ →
      (build ⟨t, counters, width⟩ source m).result = .ok rs →
      (build ⟨t', counters, width⟩ source' m').result = .ok rs' →
      rs.map Record.counts = rs'.map Record.counts := by
  constructor
  · intro t source a b width m m' rs rs' h h'
    have htree : Evidence.tree ⟨t, a, width⟩ = Evidence.tree ⟨t, b, width⟩ := rfl
    exact outline_of_build htree h h'
  · intro t t' source source' counters width m m' rs rs' ht ht' hbare hm hm' h h'
    refine counts_of_build ?_ ht.linked ht'.linked hm hm' h h'
    exact congrArg (Evidence.mk · counters width) hbare

end Report

/-! ### A tree with space between its lines -/

/-- A conditional with two clauses, written with so many empty lines between its lines. -/
def Dump.spaced (gap : Int) : Dump :=
  let line (k : Int) : Int := 1 + k * (gap + 1)
  let word (k : Int) : Option Span := some ⟨⟨line k, 3⟩, ⟨line k, 7⟩⟩
  .node "if" (line 0) (some ⟨⟨line 0, 0⟩, ⟨line 4, 3⟩⟩) [("entry", "1"), ("truthy", "2")]
    [.node "send" (line 0) (word 0) [] [], .node "send" (line 1) (word 1) [] [],
      .node "send" (line 3) (word 3) [] []]

def Tree.spaced (gap : Int) : Tree :=
  let line (k : Int) : Int := 1 + k * (gap + 1)
  let word (k : Int) (index : Nat) : Node :=
    ⟨.expression "send" [], some ⟨⟨line k, 3⟩, ⟨line k, 7⟩⟩, some 0, index, [], [], []⟩
  ⟨#[⟨.conditional .plain (some 1) (some 2) (some 3), some ⟨⟨line 0, 0⟩, ⟨line 4, 3⟩⟩, none, 0,
      [1, 2, 3], [(.truthy, 2), (.entry, 1)], []⟩,
    word 0 0, word 1 1, word 3 2]⟩

theorem Tree.spaced_loaded (gap : Int) : (Tree.spaced gap).Loaded := ⟨"spaced", .spaced gap, rfl⟩

theorem Tree.bare_spaced (gap wider : Int) : (spaced gap).bare = (spaced wider).bare := by
  simp [bare, spaced, Node.bare, Node.boundTrackers, Node.tracker?]

namespace Report

/-- The report on `Tree.spaced` for runs that go to each clause so often. -/
def spacedReport (gap held failed : Int) : List Record :=
  let line (k : Int) : Int := 1 + k * (gap + 1)
  let word (k : Int) : Span := ⟨⟨line k, 3⟩, ⟨line k, 7⟩⟩
  [⟨0, ⟨.ifTag, 1, ⟨⟨line 0, 0⟩, ⟨line 4, 3⟩⟩⟩,
    [(⟨.thenTag, 2, word 1⟩, held), (⟨.elseTag, 3, word 3⟩, failed)]⟩]

/-- Two counts of one tree, and one count of the tree written more widely. -/
theorem outline_and_counts_of_build_spaced :
    let a : Counters := .ofList [(1, 3), (2, 2)]
    let b : Counters := .ofList [(1, 5)]
    let report (gap : Int) (c : Counters) : Except Fault (List Record) :=
      (build ⟨.spaced gap, c, .word⟩ ⟨[]⟩ (.blank 4)).result
    report 0 a = .ok (spacedReport 0 2 1) ∧ report 0 b = .ok (spacedReport 0 0 5) ∧
      report 1 a = .ok (spacedReport 1 2 1) ∧
      (spacedReport 0 2 1).map Record.outline = (spacedReport 0 0 5).map Record.outline ∧
      (spacedReport 0 2 1).map Record.counts = (spacedReport 1 2 1).map Record.counts := by
  intro a b report
  have ha : report 0 a = .ok (spacedReport 0 2 1) := by decide +kernel
  have hb : report 0 b = .ok (spacedReport 0 0 5) := by decide +kernel
  have hwide : report 1 a = .ok (spacedReport 1 2 1) := by decide +kernel
  obtain ⟨houtline, hcounts⟩ := outline_and_counts_of_build
  exact ⟨ha, hb, hwide, houtline _ _ _ _ _ _ _ _ _ ha hb,
    hcounts _ _ _ _ _ _ _ _ _ _ (Tree.spaced_loaded 0) (Tree.spaced_loaded 1)
      (Tree.bare_spaced 0 1) (.blank _ 4) (.blank _ 4) ha hwide⟩

end Report

end BranchTally
