import BranchTally.Proofs.Flow.Backward
import BranchTally.Proofs.Report.Separation
import BranchTally.Proofs.Report.Shape
import BranchTally.Proofs.Runs.Sweep

/-! Runs and reports see the same branches. What a report counts for the branches of a construct is
what the raw runs give for them, in the order that belongs to each kind. Demotion reads the same
branches again, with the runs of some nodes at zero by then; as no count is negative, a branch that
the report shows at zero is the least, and takes its construct down. -/

namespace BranchTally

open BranchTally.Flow Flow.Derivation Flow.Evidence Report

/-! ### The branches of a construct -/

/-- The count of a branch that is a node. -/
def reach (slot : Slot) : Option Tally := slot.map fun id => .derived (.execution id)

/-- What the branches of a construct are counted by, in the order of its runs. -/
def Construct.parts (t : Tree) (id : NodeId) : Construct → List (Option Tally)
  | .conditional _ _ whenTrue whenFalse => [reach whenTrue, reach whenFalse]
  | .dispatch _ arms otherwise => arms.map (fun arm => reach (t.armBody? arm)) ++ [reach otherwise]
  | .shortCircuit _ _ right => [reach right, some (.derived (.implicitBranch id))]
  | .safeNavigation _ _ => [some (.derived (.implicitBranch id)), some (.hits .nonNil)]
  | .loop _ _ _ body => [reach body, some (.derived (.implicitBranch id))]
  | _ => []

theorem Construct.mem_parts {c : Construct} {t : Tree} {id : NodeId} {part : Option Tally}
    (h : part ∈ c.parts t id) : (∃ slot, part = reach slot) ∨
      part = some (.derived (.implicitBranch id)) ∨ part = some (.hits .nonNil) := by
  cases c with
  | dispatch subject arms otherwise =>
    simp only [parts, List.mem_append, List.mem_map, List.mem_singleton] at h
    rcases h with ⟨arm, -, rfl⟩ | rfl <;> exact .inl ⟨_, rfl⟩
  | conditional | shortCircuit | safeNavigation | loop =>
    simp only [parts, List.mem_cons, List.not_mem_nil, or_false] at h
    rcases h with rfl | rfl <;> simp
  | _ => cases h

/-- The runs of a construct go through the branches of its report, those of a safe navigation
backwards, and add the way out of a loop. -/
theorem Construct.parts_of_scheme {c : Construct} {t : Tree} {id : NodeId} {tag : Tag}
    {outs : List (Tag × Option Tally)} (h : c.scheme t id = some (tag, outs)) :
    c.parts t id = match c.kind with
      | .safeNavigation => (outs.map (·.2)).reverse
      | .loop => outs.map (·.2) ++ [some (.derived (.implicitBranch id))]
      | _ => outs.map (·.2) := by
  cases c with
  | conditional style => cases style <;> cases h <;> rfl
  | dispatch subject arms otherwise =>
    cases h
    simp [parts, kind, entered, reach, Function.comp_def]
  | shortCircuit op => cases op <;> cases h <;> rfl
  | safeNavigation => cases h; rfl
  | loop polarity => cases polarity <;> cases h <;> rfl
  | _ => cases h

/-- In the report on a loop stands its body alone. -/
theorem Construct.length_of_scheme {c : Construct} {t : Tree} {id : NodeId} {tag : Tag}
    {outs : List (Tag × Option Tally)} (h : c.scheme t id = some (tag, outs))
    (hc : c.kind = .loop) : outs.length = 1 := by
  cases c with
  | loop polarity => cases polarity <;> cases h <;> rfl
  | _ => cases hc

/-- A branch is counted so often when counts are answered in this way. -/
def Tells (f : Query → Except Fault Int) (e : Evidence) (id : NodeId) (part : Option Tally)
    (v : Int) : Prop :=
  ∃ tally, part = some tally ∧ (tally.count e id).run f = .ok v

section Tells

variable {e : Evidence} {f g : Query → Except Fault Int} {id : NodeId} {part : Option Tally}
  {v w : Int}

theorem tells_reach {slot : Slot} :
    Tells f e id (reach slot) v ↔ ∃ c, slot = some c ∧ f (.execution c) = .ok v := by
  cases slot <;> simp [Tells, reach, Tally.count]

theorem tells_derived {q : Query} : Tells f e id (some (.derived q)) v ↔ f q = .ok v := by
  simp [Tells, Tally.count]

theorem tells_hits {role : Role} :
    Tells f e id (some (.hits role)) v ↔ e.hits id role = .ok v := by
  simp [Tells, Tally.count]

theorem Tells.mono (hfg : ∀ q v, f q = .ok v → g q = .ok v) (h : Tells f e id part v) :
    Tells g e id part v := by
  obtain ⟨tally, rfl, h⟩ := h
  refine ⟨tally, rfl, ?_⟩
  cases tally with
  | derived q =>
    rw [Tally.count, run_count] at h ⊢
    exact hfg q v h
  | hits role =>
    rw [Tally.count, run_lift] at h ⊢
    exact h

theorem tells_rightUnique (f : Query → Except Fault Int) (e : Evidence) (id : NodeId) :
    Relator.RightUnique (Tells f e id) := by
  rintro part v w ⟨tally, ht, hv⟩ ⟨tally', ht', hw⟩
  cases ht.symm.trans ht'
  exact Except.ok.inj (hv.symm.trans hw)

end Tells

namespace Runs

variable {t : Tree} {e : Evidence} {runs next : Runs} {id : NodeId} {v : Int}

/-- The counts of a tree with the executions taken from `runs`. -/
def overlay (runs : Runs) (e : Evidence) : Query → Except Fault Int
  | .execution id => runs.at? id
  | q => e.answer q

theorem inSlot_eq_ok {slot : Slot} {name : String} : inSlot t runs id slot name = .ok v ↔
    ∃ c, slot = some c ∧ runs.at? c = .ok v := by
  unfold inSlot
  constructor
  · intro h
    obtain ⟨c, hc, hv⟩ := bind_eq_ok.mp h
    exact ⟨c, Tree.required_eq_ok.mp hc, hv⟩
  · rintro ⟨c, rfl, hv⟩
    exact hv

theorem inArm_eq_ok (h : inArm t runs id = .ok v) :
    ∃ c, t.armBody? id = some c ∧ runs.at? c = .ok v := by
  obtain ⟨n, hn, h⟩ := bind_eq_ok.mp h
  rw [Tree.armBody?, Tree.node_eq_ok.mp hn, Option.bind_some]
  cases hc : n.construct with
  | arm patterns body =>
    rw [hc] at h
    exact inSlot_eq_ok.mp h
  | _ =>
    rw [hc] at h
    exact absurd h Tree.refuse_ne_ok

theorem inArms_eq_ok {arms : List NodeId} {vs : List Int} (h : inArms t runs arms = .ok vs) :
    List.Forall₂ (fun arm v => ∃ c, t.armBody? arm = some c ∧ runs.at? c = .ok v) arms vs := by
  induction arms generalizing vs with
  | nil =>
    cases h
    exact .nil
  | cons arm arms ih =>
    obtain ⟨v, hv, h⟩ := bind_eq_ok.mp h
    obtain ⟨rest, hrest, h⟩ := bind_eq_ok.mp h
    cases h
    exact .cons (inArm_eq_ok hv) (ih hrest)

/-- The branches of a construct that branches are its parts, counted over the runs. -/
theorem run_branches {bs : List Int} (h : (branches e runs id).run e.answer = .ok bs) :
    ∃ n, e.tree.nodes[id]? = some n ∧
      List.Forall₂ (Tells (runs.overlay e) e id) (n.construct.parts e.tree id) bs := by
  obtain ⟨n, hn, h⟩ := run_bind_eq_ok.mp h
  rw [run_lift, Tree.node_eq_ok] at hn
  refine ⟨n, hn, ?_⟩
  cases hc : n.construct with
  | conditional style condition whenTrue whenFalse =>
    simp only [hc, run_bind_eq_ok, run_lift, inSlot_eq_ok] at h
    obtain ⟨held, hheld, failed, hfailed, h⟩ := h
    cases h
    exact .cons (tells_reach.mpr hheld) (.cons (tells_reach.mpr hfailed) .nil)
  | dispatch subject arms otherwise =>
    simp only [hc, run_bind_eq_ok, run_lift, inSlot_eq_ok] at h
    obtain ⟨matched, hmatched, unmatched, hunmatched, h⟩ := h
    cases h
    refine List.rel_append ?_ (.cons (tells_reach.mpr hunmatched) .nil)
    exact List.forall₂_map_left_iff.mpr
      ((inArms_eq_ok hmatched).imp fun arm v hv => tells_reach.mpr hv)
  | shortCircuit op left right =>
    simp only [hc, run_bind_eq_ok, run_lift, inSlot_eq_ok, run_count] at h
    obtain ⟨evaluated, hevaluated, skipped, hskipped, h⟩ := h
    cases h
    exact .cons (tells_reach.mpr hevaluated) (.cons (tells_derived.mpr hskipped) .nil)
  | safeNavigation receiver arguments =>
    simp only [hc, run_bind_eq_ok, run_lift, run_count] at h
    obtain ⟨skipped, hskipped, made, hmade, h⟩ := h
    cases h
    exact .cons (tells_derived.mpr hskipped) (.cons (tells_hits.mpr hmade) .nil)
  | loop polarity test condition body =>
    simp only [hc, run_bind_eq_ok, run_lift, inSlot_eq_ok, run_count] at h
    obtain ⟨repeated, hrepeated, left, hleft, h⟩ := h
    cases h
    exact .cons (tells_reach.mpr hrepeated) (.cons (tells_derived.mpr hleft) .nil)
  | _ =>
    simp only [hc] at h
    cases h
    exact .nil

/-- What is known of the raw runs: the execution of every node, in its place. -/
structure Executions (e : Evidence) (runs : Runs) : Prop where
  size : runs.size = e.tree.size
  of_getElem : ∀ {i : NodeId} {v : Int}, runs[i]? = some v → e.answer (.execution i) = .ok v

theorem Executions.getElem (h : Executions e runs) (hv : e.answer (.execution id) = .ok v)
    (hid : id < e.tree.size) : runs[id]? = some v := by
  have hlt : id < runs.size := h.size ▸ hid
  have hget : runs[id]? = some runs[id] := Array.getElem?_eq_getElem hlt
  rw [hget, Except.ok.inj ((h.of_getElem hget).symm.trans hv)]

theorem executions_of_raw (ht : e.tree.Loaded) (h : (raw e.tree).run e.answer = .ok runs) :
    Executions e runs := by
  obtain ⟨hsize, hin⟩ := run_raw h
  refine ⟨hsize, fun {i v} hv => ?_⟩
  have hlt : i < e.tree.size := hsize ▸ (Array.getElem?_eq_some_iff.mp hv).1
  obtain ⟨w, hw, hi⟩ := hin i (by rw [ht.preorder_eq, List.mem_range]; exact hlt) hlt
  rw [hv, Option.some.injEq] at hi
  rwa [hi]

/-- Over the raw runs the branches have the counts of the plain recursion. -/
theorem Executions.overlay_eq_ok (h : Executions e runs) (q : Query) (v : Int)
    (hv : runs.overlay e q = .ok v) : e.answer q = .ok v := by
  cases q with
  | execution id => exact h.of_getElem (at?_eq_ok.mp hv)
  | _ => exact hv

section Parts

variable {c : Construct} {part : Option Tally} (hpart : part ∈ c.parts t id)

include hpart

/-- If no node has negative runs, then no branch has. -/
theorem nonneg_of_tells (hl : e.tree.Linked) (hh : ∀ tracker, 0 ≤ e.counters.hits e.width tracker)
    (hruns : ∀ (i : NodeId) (v : Int), runs[i]? = some v → 0 ≤ v)
    (hv : Tells (runs.overlay e) e id part v) : 0 ≤ v := by
  rcases Construct.mem_parts hpart with ⟨slot, rfl⟩ | rfl | rfl
  · obtain ⟨c, -, hv⟩ := tells_reach.mp hv
    exact hruns c v (at?_eq_ok.mp hv)
  · have hv : runs.overlay e (.implicitBranch id) = .ok v := tells_derived.mp hv
    exact implicitBranch_nonneg hh hl hv
  · obtain ⟨n, -, hv⟩ := bind_eq_ok.mp (tells_hits.mp hv)
    cases hv
    exact reading_nonneg hh n _

/-- A branch that is not counted once has no runs, however many nodes are demoted. -/
theorem Executions.zero_of_demotes (hraw : Executions e runs) (hd : runs.Demotes next)
    (hz : Tells e.answer e id part 0) (hv : Tells (next.overlay e) e id part v) : v = 0 := by
  rcases Construct.mem_parts hpart with ⟨slot, rfl⟩ | rfl | rfl
  · obtain ⟨c, hc, hz⟩ := tells_reach.mp hz
    obtain ⟨c', hc', hv⟩ := tells_reach.mp hv
    cases hc.symm.trans hc'
    have hget := at?_eq_ok.mp hv
    have hlt : c < e.tree.size := hraw.size ▸ hd.1 ▸ (Array.getElem?_eq_some_iff.mp hget).1
    rw [hd.zero (hraw.getElem hz hlt), Option.some.injEq] at hget
    exact hget.symm
  · have hv : next.overlay e (.implicitBranch id) = .ok v := tells_derived.mp hv
    have hz : e.answer (.implicitBranch id) = .ok 0 := tells_derived.mp hz
    exact Except.ok.inj (hv.symm.trans hz)
  · exact Except.ok.inj ((tells_hits.mp hv).symm.trans (tells_hits.mp hz))

end Parts

end Runs

namespace Report

open Runs

variable {e : Evidence} {runs next : BranchTally.Runs} {bs : List Int}

/-! ### Agreement -/

/-- What the runs of the branches of a construct are, by its record in a report. -/
def Mirrors (e : Evidence) (r : Record) : Kind → List Int → Prop
  | .safeNavigation, bs => bs = r.counts.reverse
  | .loop, bs => ∃ repeated left, r.counts = [repeated] ∧
      (∀ earlier, e.lookup earlier (.implicitBranch r.node) = .ok left) ∧ bs = [repeated, left]
  | _, bs => bs = r.counts

section Records

variable {r : Record} {n : Node} {tag : Tag} {outs : List (Tag × Option Tally)}
  (hscheme : n.construct.scheme e.tree r.node = some (tag, outs))
  (houts : List.Forall₂ (Counts e r.node) outs r.counts)

include hscheme houts

/-- The branches of a construct have the raw runs that its record counts. -/
theorem mirrors_of_branches (hl : e.tree.Linked) (hraw : Executions e runs)
    (hb : List.Forall₂ (Tells (runs.overlay e) e r.node) (n.construct.parts e.tree r.node) bs) :
    Mirrors e r n.kind bs := by
  have hcounts : List.Forall₂ (Tells e.answer e r.node) (outs.map (·.2)) r.counts :=
    List.forall₂_map_left_iff.mpr houts
  have hbs := hb.imp fun _ _ => Tells.mono hraw.overlay_eq_ok
  have hunique {parts : List (Option Tally)} {xs ys : List Int}
      (hx : List.Forall₂ (Tells e.answer e r.node) parts xs)
      (hy : List.Forall₂ (Tells e.answer e r.node) parts ys) : xs = ys :=
    List.right_unique_forall₂' (tells_rightUnique e.answer e r.node) hx hy
  rw [Construct.parts_of_scheme hscheme] at hbs
  rw [Node.kind]
  cases hk : n.construct.kind with
  | safeNavigation =>
    rw [hk] at hbs
    exact hunique hbs (List.rel_reverse hcounts)
  | loop =>
    rw [hk] at hbs
    obtain ⟨out, rfl⟩ := List.length_eq_one_iff.mp (Construct.length_of_scheme hscheme hk)
    cases hbs with | cons hrepeated hbs =>
    cases hbs with | cons hleft hbs =>
    cases hbs
    refine ⟨_, _, ?_, fun earlier => ?_, rfl⟩
    · exact hunique hcounts (.cons hrepeated .nil)
    · rw [lookup_eq hl]
      exact tells_derived.mp hleft
  | _ =>
    rw [hk] at hbs
    exact hunique hbs hcounts

/-- If the record of a construct shows a zero, then the least of its branches is zero, however many
of them have been demoted. -/
theorem least_of_branches (hl : e.tree.Linked)
    (hh : ∀ tracker, 0 ≤ e.counters.hits e.width tracker) (hraw : Executions e runs)
    (hd : runs.Demotes next) (hz : 0 ∈ r.counts)
    (hb : List.Forall₂ (Tells (next.overlay e) e r.node) (n.construct.parts e.tree r.node) bs) :
    bs.min? = some 0 := by
  obtain ⟨out, hout, hzero⟩ := exists_left_of_forall₂ houts hz
  have hpart : out.2 ∈ n.construct.parts e.tree r.node := by
    rw [Construct.parts_of_scheme hscheme]
    have := List.mem_map_of_mem (f := (·.2)) hout
    split
    · exact List.mem_reverse.mpr this
    · exact List.mem_append_left _ this
    · exact this
  obtain ⟨v, hv, hb0⟩ := exists_right_of_forall₂ hb hpart
  obtain rfl : v = 0 := hraw.zero_of_demotes hpart hd hzero hb0
  refine List.min?_eq_some_iff.mpr ⟨hv, fun v hv => ?_⟩
  obtain ⟨part, hpart, hv⟩ := exists_left_of_forall₂ hb hv
  refine nonneg_of_tells hpart hl hh (fun i v hi => hd.nonneg (fun i v hi => ?_) hi) hv
  exact (bound_of_execution hl (hraw.of_getElem hi)).1

end Records

/-- On a loaded tree with a report, the branches of every construct that branches have the raw runs
that its record counts; and if no tracker has negative hits, demotion leaves no runs to a construct
whose record shows a zero. Lookups before and in between leave a sound memory sound. -/
theorem branches_of_build {t : Tree} (ht : t.Loaded) (counters : Counters) (width : Width)
    (source : Source) {m m' : Memory} (hm : m.Sound ⟨t, counters, width⟩)
    (hm' : m'.Sound ⟨t, counters, width⟩) {rs : List Record} {raw : BranchTally.Runs}
    (h : (build ⟨t, counters, width⟩ source m).result = .ok rs)
    (hraw : (Evidence.resume ⟨t, counters, width⟩ (Runs.raw t) m').1 = .ok raw) :
    let e : Evidence := ⟨t, counters, width⟩
    (∀ id n, t.nodes[id]? = some n → n.kind.isBranching →
      ∀ m bs, m.Sound e → (e.resume (Runs.branches e raw id) m).1 = .ok bs →
        ∃ r ∈ rs, r.node = id ∧ Mirrors e r n.kind bs) ∧
    ((∀ tracker, 0 ≤ counters.hits width tracker) →
      ∀ m demoted, m.Sound e → (e.resume (Runs.demote e raw) m).1 = .ok demoted →
        ∀ r ∈ rs, 0 ∈ r.counts → demoted[r.node]? = some 0) := by
  intro e
  have hl : e.tree.Linked := ht.linked
  rw [(Evidence.resume_eq hl _ hm').1] at hraw
  have hexec : Executions e raw := executions_of_raw ht hraw
  constructor
  · intro id n hn hk m bs hm'' hb
    rw [(Evidence.resume_eq hl _ hm'').1] at hb
    have hid : id ∈ rs.map (·.node) := nodes_of_build h ▸ (mem_branching ht).mpr ⟨n, hn, hk⟩
    obtain ⟨r, hr, rfl⟩ := List.mem_map.mp hid
    obtain ⟨n', tag, outs, hn', hscheme, houts⟩ := counts_of_record hl hm h hr
    cases hn.symm.trans hn'
    obtain ⟨n', hn', hb⟩ := run_branches hb
    cases hn.symm.trans hn'
    exact ⟨r, hr, rfl, mirrors_of_branches hscheme houts hl hexec hb⟩
  · intro hh m demoted hm'' hd r hr hz
    rw [(Evidence.resume_eq hl _ hm'').1] at hd
    obtain ⟨n, tag, outs, hn, hscheme, houts⟩ := counts_of_record hl hm h hr
    have hlt : r.node < t.size := Tree.size_of_node hn
    refine run_demoteAll_zero ?_ (hexec.size ▸ hlt) ?_ hd
    · rw [List.mem_reverse, ht.preorder_eq, List.mem_range]
      exact hlt
    · intro next bs hnext hb
      obtain ⟨n', hn', hb⟩ := run_branches hb
      cases hn.symm.trans hn'
      exact least_of_branches hscheme houts hl hh hexec hnext hz hb

/-- In the runs of `Tree.choosingEvidence` the conjunction and the `case` have a branch that is never
taken, and are demoted; they are the branches of the `unless`, which is demoted in turn although its
record shows no zero. -/
theorem branches_of_build_choosing :
    let e := Tree.choosingEvidence
    let raw : BranchTally.Runs := #[3, 3, 1, 1, 0, 2, 2, 2, 2, 1, 1, 1, 1, 0]
    let demoted : BranchTally.Runs := #[0, 3, 0, 1, 0, 0, 2, 2, 2, 1, 1, 1, 1, 0]
    (build e ⟨[]⟩ e.memory).result = .ok choosingReport ∧
      (e.resume (Runs.raw e.tree) e.memory).1 = .ok raw ∧
      (∃ r ∈ choosingReport, r.node = 5 ∧ Mirrors e r .dispatch [1, 1, 0]) ∧
      (e.resume (Runs.demote e raw) e.memory).1 = .ok demoted ∧
      ∀ r ∈ choosingReport, 0 ∈ r.counts → demoted[r.node]? = some 0 := by
  intro e raw demoted
  have hr : (build e ⟨[]⟩ e.memory).result = .ok choosingReport := by decide +kernel
  have hraw : (e.resume (Runs.raw e.tree) e.memory).1 = .ok raw := by decide +kernel
  have hcase : (e.resume (Runs.branches e raw 5) e.memory).1 = .ok [1, 1, 0] := by decide +kernel
  have hd : (e.resume (Runs.demote e raw) e.memory).1 = .ok demoted := by decide +kernel
  have hm := memory_sound e
  obtain ⟨hbranches, hdemote⟩ :=
    branches_of_build Tree.choosing_loaded e.counters e.width ⟨[]⟩ hm hm hr hraw
  obtain ⟨r, hmem, hnode, hmirrors⟩ := hbranches 5 _ rfl rfl e.memory [1, 1, 0] hm hcase
  exact ⟨hr, hraw, ⟨r, hmem, hnode, hmirrors⟩, hd, hdemote Tree.choosing_hits_nonneg e.memory demoted hm hd⟩

end Report

end BranchTally
