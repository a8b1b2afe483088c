import BranchTally.Report.Survey
import BranchTally.Proofs.Flow.Recall

/-! The survey of a tree without its memory. On a sound memory a survey tallies each construct with
the counts of the plain recursion, so that its result depends on the tree, the text and the counters
alone. What a report says of places and what it says of counts are told apart. -/

namespace BranchTally.Report

open BranchTally.Flow

/-! ### Plain surveys -/

/-- The constructs among the nodes, each counted by the plain recursion, up to a fault. -/
def tally (e : Evidence) (source : Source) : List NodeId → Except Fault (List Tallied)
  | [] => .ok []
  | id :: ids => do
    match ← Site.plan? ⟨e.tree, source⟩ id with
    | none => tally e source ids
    | some plan =>
      let t ← (plan.count e).run e.answer
      return t :: (← tally e source ids)

/-- A node adds nothing to a survey, or the construct that it is planned and counted as. -/
theorem tally_cons_eq_ok {e : Evidence} {source : Source} {id : NodeId} {ids : List NodeId}
    {ts : List Tallied} : tally e source (id :: ids) = .ok ts ↔
      (Site.plan? ⟨e.tree, source⟩ id = .ok none ∧ tally e source ids = .ok ts) ∨
      ∃ plan x xs, Site.plan? ⟨e.tree, source⟩ id = .ok (some plan) ∧
        (plan.count e).run e.answer = .ok x ∧ tally e source ids = .ok xs ∧ ts = x :: xs := by
  rw [tally]
  match Site.plan? ⟨e.tree, source⟩ id with
  | .error fault => simp [bind, Except.bind]
  | .ok none => simp [bind, Except.bind]
  | .ok (some plan) =>
    change Except.bind ((plan.count e).run e.answer) _ = _ ↔ _
    constructor
    · intro h
      obtain ⟨x, hx, h⟩ := bind_eq_ok.mp h
      obtain ⟨xs, hxs, h⟩ := bind_eq_ok.mp h
      cases h
      exact .inr ⟨plan, x, xs, rfl, hx, hxs, rfl⟩
    · rintro (⟨h, -⟩ | ⟨_, x, xs, h, hx, hxs, rfl⟩) <;> cases h
      exact bind_eq_ok.mpr ⟨x, hx, bind_eq_ok.mpr ⟨xs, hxs, rfl⟩⟩

theorem survey_eq_tally {e : Evidence} (h : e.tree.Linked) (source : Source) (ids : List NodeId)
    {m : Memory} (hm : m.Sound e) :
    (survey e source ids m).result = tally e source ids ∧
      (survey e source ids m).memory.Sound e := by
  induction ids generalizing m with
  | nil => exact ⟨rfl, hm⟩
  | cons id ids ih =>
    unfold survey tally
    match Site.plan? ⟨e.tree, source⟩ id with
    | .error fault => exact ⟨rfl, hm⟩
    | .ok none => exact ih hm
    | .ok (some plan) =>
      obtain ⟨hr, hs⟩ := Evidence.resume_eq h (plan.count e) hm
      simp only
      match hc : e.resume (plan.count e) m with
      | (.error fault, m') =>
        rw [hc] at hr hs
        simp only [bind, Except.bind, ← hr]
        exact ⟨trivial, hs⟩
      | (.ok t, m') =>
        rw [hc] at hr hs
        obtain ⟨hrest, hs⟩ := ih hs
        simp only [bind, Except.bind, ← hr, hrest]
        exact ⟨by cases tally e source ids <;> rfl, hs⟩

theorem build_eq_tally {e : Evidence} (h : e.tree.Linked) (source : Source) {m : Memory}
    (hm : m.Sound e) :
    (build e source m).result = (tally e source e.tree.preorder).map (number 1) := by
  have hs := (survey_eq_tally h source e.tree.preorder hm).1
  unfold build
  simp only [← hs]
  cases (survey e source e.tree.preorder m).result <;> rfl

/-! ### Places and counts -/

/-- A construct without its counts. -/
def Tallied.outline (t : Tallied) : NodeId × Tag × Span × List Branch :=
  (t.node, t.tag, t.span, t.branches.map (·.1))

def Tallied.counts (t : Tallied) : List Int := t.branches.map (·.2)

/-- A record without its counts. -/
def Record.outline (r : Record) : NodeId × Descriptor × List Descriptor :=
  (r.node, r.condition, r.branches.map (·.1))

def Record.counts (r : Record) : List Int := r.branches.map (·.2)

/-- The counts of a report are those of its constructs. -/
theorem number_counts (ts : List Tallied) (first : Nat) :
    (number first ts).map Record.counts = ts.map Tallied.counts := by
  induction ts generalizing first with
  | nil => rfl
  | cons t ts ih =>
    simp only [number, List.map_cons, ih, Record.counts, Tallied.counts, List.map_map]
    congr 1
    conv_rhs => rw [← List.zipIdx_map_fst (first + 1) t.branches, List.map_map]
    rfl

/-- A record has the node and the counts of a construct. -/
theorem counts_of_mem_number {ts : List Tallied} {first : Nat} {r : Record}
    (h : r ∈ number first ts) : ∃ x ∈ ts, r.node = x.node ∧ r.counts = x.counts := by
  induction ts generalizing first with
  | nil => cases h
  | cons t ts ih =>
    rcases List.mem_cons.mp h with rfl | h
    · have hcounts := number_counts (t :: ts) first
      rw [number, List.map_cons, List.map_cons] at hcounts
      exact ⟨t, List.mem_cons_self, rfl, (List.cons.inj hcounts).1⟩
    · obtain ⟨x, hx, hr⟩ := ih h
      exact ⟨x, List.mem_cons_of_mem t hx, hr⟩

/-- The branches of a construct are described by their tags and spans, in their order. -/
theorem descriptors_eq (branches : List (Branch × Int)) (first : Nat) :
    ((branches.zipIdx first).map fun ((b, count), place) =>
      ((⟨b.tag, place, b.span⟩ : Descriptor), count)).map (·.1) =
      ((branches.map (·.1)).zipIdx first).map fun (b, place) => ⟨b.tag, place, b.span⟩ := by
  induction branches generalizing first with
  | nil => rfl
  | cons b branches ih =>
    simp only [List.zipIdx_cons, List.map_cons]
    rw [ih]

/-- Constructs that differ only in their counts are placed in the same way. -/
theorem number_outline {ts us : List Tallied}
    (h : ts.map Tallied.outline = us.map Tallied.outline) (first : Nat) :
    (number first ts).map Record.outline = (number first us).map Record.outline := by
  induction ts generalizing us first with
  | nil =>
    cases us with
    | nil => rfl
    | cons u us => cases h
  | cons t ts ih =>
    cases us with
    | nil => cases h
    | cons u us =>
      simp only [List.map_cons, List.cons.injEq, Tallied.outline, Prod.mk.injEq] at h
      obtain ⟨⟨hn, ht, hs, hb⟩, hrest⟩ := h
      have hl : t.branches.length = u.branches.length := by simpa using congrArg List.length hb
      simp only [number, List.map_cons, Record.outline, descriptors_eq]
      rw [hn, ht, hs, hb, hl, ih (by simpa [Tallied.outline] using hrest)]

end BranchTally.Report
