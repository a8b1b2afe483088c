import BranchTally.Proofs.Flow.Sums
import BranchTally.Proofs.Report.Tally

/-! Reports add up over runs. If two runs of a program each have a report, then so have the two
together: it names the same places, and each of its counts is the sum of theirs. -/

namespace BranchTally.Report

open BranchTally.Flow BranchTally.Flow.Derivation BranchTally.Flow.Evidence

variable {t : Tree} {a b : Counters}

/-- Branches counted for two runs and for both together. -/
def BranchSums (xs ys zs : List (Branch × Int)) : Prop :=
  zs.map (·.1) = xs.map (·.1) ∧ zs.map (·.1) = ys.map (·.1) ∧
    zs.map (·.2) = List.zipWith (· + ·) (xs.map (·.2)) (ys.map (·.2))

/-- A construct counted for two runs and for both together. -/
def TalliedSums (x y z : Tallied) : Prop :=
  z.outline = x.outline ∧ z.outline = y.outline ∧
    z.counts = List.zipWith (· + ·) x.counts y.counts

theorem tallyCount_adds (id : NodeId) (tally : Tally) :
    Adds IsSum (tally.count (whole t a) id) (tally.count (whole t b) id)
      (tally.count (whole t (a ++ b)) id) := by
  cases tally with
  | derived q => exact .count q
  | hits role =>
    intro f g k _ x y hx hy
    simp only [Tally.count, run_lift, hits, whole] at hx hy ⊢
    cases hn : t.node id with
    | error fault =>
      rw [hn] at hx
      cases hx
    | ok n =>
      rw [hn] at hx hy
      cases hx
      cases hy
      exact ⟨_, rfl, reading_append n role⟩

theorem countBranches_adds (id : NodeId) (branches : List (Except Fault Branch)) :
    Adds BranchSums (countBranches (whole t a) id branches) (countBranches (whole t b) id branches)
      (countBranches (whole t (a ++ b)) id branches) := by
  induction branches with
  | nil => exact .pure ⟨rfl, rfl, rfl⟩
  | cons branch branches ih =>
    refine .read fun b _ => .bind (tallyCount_adds id b.tally) fun x y z hz =>
      .bind ih fun xs ys zs hs => .pure ?_
    unfold IsSum at hz
    obtain ⟨hx, hy, hc⟩ := hs
    simp [BranchSums, hx ▸ hy, hx, hc, hz]

theorem planCount_adds (p : Plan) :
    Adds TalliedSums (p.count (whole t a)) (p.count (whole t b)) (p.count (whole t (a ++ b))) :=
  .bind (countBranches_adds _ _) fun xs ys zs ⟨hx, hy, hc⟩ =>
    .pure ⟨by simp [Tallied.outline, hx], by simp [Tallied.outline, hy], hc⟩

/-- The constructs of two runs and of both together. -/
def SurveySums (xs ys zs : List Tallied) : Prop :=
  zs.map Tallied.outline = xs.map Tallied.outline ∧
    zs.map Tallied.outline = ys.map Tallied.outline ∧
    zs.map Tallied.counts =
      List.zipWith (List.zipWith (· + ·)) (xs.map Tallied.counts) (ys.map Tallied.counts)

theorem tally_append {source : Source} {ids : List NodeId} {xs ys : List Tallied}
    (hx : tally (whole t a) source ids = .ok xs) (hy : tally (whole t b) source ids = .ok ys) :
    ∃ zs, tally (whole t (a ++ b)) source ids = .ok zs ∧ SurveySums xs ys zs := by
  induction ids generalizing xs ys with
  | nil =>
    cases hx
    cases hy
    exact ⟨[], rfl, rfl, rfl, rfl⟩
  | cons id ids ih =>
    rcases tally_cons_eq_ok.mp hx with ⟨hp, hx⟩ | ⟨plan, x, xs', hp, hxc, hxs, rfl⟩ <;>
      rcases tally_cons_eq_ok.mp hy with ⟨hp', hy⟩ | ⟨plan', y, ys', hp', hyc, hys, rfl⟩ <;>
      rw [show (whole t b).tree = (whole t a).tree from rfl, hp] at hp' <;> cases hp'
    · obtain ⟨zs, hzs, hs⟩ := ih hx hy
      exact ⟨zs, tally_cons_eq_ok.mpr (.inl ⟨hp, hzs⟩), hs⟩
    · obtain ⟨z, hzc, ho, ho', hc⟩ :=
        planCount_adds plan _ _ _ (fun q m n => answer_append) x y hxc hyc
      obtain ⟨zs, hzs, hos, hos', hcs⟩ := ih hxs hys
      refine ⟨z :: zs, tally_cons_eq_ok.mpr (.inr ⟨plan, z, zs, hp, hzc, hzs, rfl⟩), ?_⟩
      simp [SurveySums, ← ho, ← ho', hc, ← hos, ← hos', hcs]

theorem build_append (h : t.Linked) {source : Source} {rs ss : List Record}
    (hr : (build (whole t a) source (whole t a).memory).result = .ok rs)
    (hs : (build (whole t b) source (whole t b).memory).result = .ok ss) :
    ∃ us, (build (whole t (a ++ b)) source (whole t (a ++ b)).memory).result = .ok us ∧
      us.map Record.outline = rs.map Record.outline ∧
      us.map Record.outline = ss.map Record.outline ∧
      us.map Record.counts =
        List.zipWith (List.zipWith (· + ·)) (rs.map Record.counts) (ss.map Record.counts) := by
  rw [build_eq_tally h source (memory_sound _)] at hr hs ⊢
  obtain ⟨xs, hx, rfl⟩ := map_eq_ok.mp hr
  obtain ⟨ys, hy, rfl⟩ := map_eq_ok.mp hs
  obtain ⟨zs, hz, ho, ho', hc⟩ := tally_append hx hy
  refine ⟨number 1 zs, map_eq_ok.mpr ⟨zs, hz, rfl⟩, number_outline ho 1, number_outline ho' 1, ?_⟩
  rw [number_counts, number_counts, number_counts, hc]

/-- On a loaded tree counts add up: a count that two runs each have, whatever was asked before, is
for both together the sum of the two; and if each has a report, both together have the report on
the same places with the sums of the counts. -/
theorem lookup_and_build_append (ht : t.Loaded) (a b : Counters) :
    (∀ (q : Query) (x y : Int) (before before' before'' : List Query),
      (whole t a).lookup before q = .ok x → (whole t b).lookup before' q = .ok y →
      (whole t (a ++ b)).lookup before'' q = .ok (x + y)) ∧
    ∀ (source : Source) (rs ss : List Record),
      (build (whole t a) source (whole t a).memory).result = .ok rs →
      (build (whole t b) source (whole t b).memory).result = .ok ss →
      ∃ us, (build (whole t (a ++ b)) source (whole t (a ++ b)).memory).result = .ok us ∧
        us.map Record.outline = rs.map Record.outline ∧
        us.map Record.outline = ss.map Record.outline ∧
        us.map Record.counts =
          List.zipWith (List.zipWith (· + ·)) (rs.map Record.counts) (ss.map Record.counts) := by
  refine ⟨fun q x y before before' before'' hx hy => ?_, fun source rs ss hr hs => ?_⟩
  · rw [lookup_eq (e := whole t _) ht.linked] at hx hy ⊢
    exact answer_append hx hy
  · exact build_append ht.linked hr hs

/-- The report on `Tree.retry`: how often the body of its loop ran through unrescued. -/
def bodiesOfRetry (n : Int) : List Record :=
  [⟨1, ⟨.whileTag, 1, ⟨⟨1, 0⟩, ⟨7, 3⟩⟩⟩, [(⟨.bodyTag, 2, ⟨⟨3, 4⟩, ⟨5, 9⟩⟩⟩, n)]⟩]

/-- One run whose body raises once and is rescued, and two of whose bodies one runs through. -/
theorem lookup_and_build_append_retry :
    let a : Counters := .ofList [(1, 1), (2, 1), (3, 2), (4, 0), (5, 1)]
    let b : Counters := .ofList [(1, 2), (2, 2), (3, 3), (4, 1), (5, 0)]
    ((whole .retry a).lookup [] (.completion 1) = .ok 1 ∧
      (whole .retry b).lookup [.completion 0] (.completion 1) = .ok 1 ∧
      (whole .retry (a ++ b)).lookup [.entry 9] (.completion 1) = .ok 2) ∧
    (build (whole .retry a) ⟨[]⟩ (whole .retry a).memory).result = .ok (bodiesOfRetry 0) ∧
    (build (whole .retry b) ⟨[]⟩ (whole .retry b).memory).result = .ok (bodiesOfRetry 1) ∧
    ∃ us, (build (whole .retry (a ++ b)) ⟨[]⟩ (whole .retry (a ++ b)).memory).result = .ok us ∧
      us.map Record.outline = (bodiesOfRetry 0).map Record.outline ∧
      us.map Record.counts = [[1]] := by
  intro a b
  have h := lookup_and_build_append Tree.retry_loaded a b
  have ha : (build (whole .retry a) ⟨[]⟩ (whole .retry a).memory).result = .ok (bodiesOfRetry 0) :=
    rfl
  have hb : (build (whole .retry b) ⟨[]⟩ (whole .retry b).memory).result = .ok (bodiesOfRetry 1) :=
    rfl
  obtain ⟨us, hu, ho, -, hc⟩ := h.2 ⟨[]⟩ _ _ ha hb
  have hx : (whole .retry a).lookup [] (.completion 1) = .ok 1 := by decide +kernel
  have hy : (whole .retry b).lookup [.completion 0] (.completion 1) = .ok 1 := by decide +kernel
  have hz := h.1 _ _ _ _ _ [.entry 9] hx hy
  exact ⟨⟨hx, hy, hz⟩, ha, hb, us, hu, ho, hc⟩

end BranchTally.Report
