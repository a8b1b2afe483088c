import BranchTally.Flow.Memory
import BranchTally.Proofs.Flow.Moment

/-! On a linked tree the plain recursion reaches the ground within its depth, since no more counts
come before one another than the tree has, five to a node. A count is then what its rule makes of
the counts it rests on, and what holds of a count whenever it holds of those before it holds of all
counts. -/

namespace BranchTally

open BranchTally.Flow

namespace Tree

/-- The counts that belong to the nodes of a tree. -/
def queries (t : Tree) : List Query :=
  (List.range t.size).flatMap fun id =>
    [.entry id, .execution id, .completion id, .handlerEntry id, .implicitBranch id]

/-- How many counts come before one. -/
def rank (t : Tree) (q : Query) : Nat :=
  (t.queries.toFinset.filter fun r => t.moment r < t.moment q).card

variable {t : Tree} {q r : Query}

theorem mem_queries : q ∈ t.queries ↔ q.node < t.size := by
  cases q <;> simp [queries]

theorem rank_le (t : Tree) (q : Query) : t.rank q ≤ 5 * t.size := by
  calc t.rank q ≤ t.queries.toFinset.card := Finset.card_filter_le ..
    _ ≤ t.queries.length := List.toFinset_card_le _
    _ = 5 * t.size := by simp [queries, Nat.mul_comm]

theorem Before.rank_lt (h : t.Before q r) : t.rank q < t.rank r := by
  apply Finset.card_lt_card
  rw [Finset.ssubset_iff_of_subset]
  · refine ⟨q, ?_, by simp⟩
    rw [Finset.mem_filter, List.mem_toFinset, mem_queries]
    exact h
  · intro x hx
    simp only [Finset.mem_filter] at hx ⊢
    exact ⟨hx.1, lt_trans hx.2 h.2⟩

/-- What holds of a count if it holds of those before it holds of every count. -/
theorem count_induction {P : Query → Prop} (step : ∀ q, (∀ r, t.Before r q → P r) → P q)
    (q : Query) : P q := by
  induction hk : t.rank q using Nat.strong_induction_on generalizing q with
  | h k ih => exact step q fun r hr => ih _ (hk ▸ hr.rank_lt) r rfl

end Tree

namespace Flow.Evidence

open Flow.Derivation

variable {e : Evidence}

theorem rank_lt_depth (e : Evidence) (q : Query) : e.tree.rank q + 1 < e.depth := by
  have := e.tree.rank_le q
  unfold depth
  omega

/-- Depth beyond the rank of a count does not matter to it. -/
theorem derive_eq (h : e.tree.Linked) {d d' : Nat} {q : Query} (hd : e.tree.rank q < d)
    (hd' : e.tree.rank q < d') : e.derive d q = e.derive d' q := by
  induction d generalizing d' q with
  | zero => omega
  | succ d ih =>
    cases d' with
    | zero => omega
    | succ d' =>
      refine (rule_asksOnly h q).run_congr fun r hr => ?_
      have := hr.rank_lt
      exact ih (by omega) (by omega)

/-- A count is what its rule makes of the counts it rests on. -/
theorem answer_eq (h : e.tree.Linked) (q : Query) : e.answer q = (e.rule q).run e.answer := by
  have hq := e.rank_lt_depth q
  rw [answer, show e.depth = (e.depth - 1) + 1 by omega]
  refine (rule_asksOnly h q).run_congr fun r hr => ?_
  have := hr.rank_lt
  exact derive_eq h (by omega) (by omega)

end Flow.Evidence

end BranchTally
