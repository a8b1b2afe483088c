import Mathlib.Algebra.Ring.Int.Defs
import Mathlib.Data.List.Basic
import Mathlib.Order.Interval.Finset.Nat
import BranchTally.Proofs.Tree.Linked

/-! The order of the nodes of a linked tree. Children come after their parent, so that no path is
longer than the number of nodes: what lies below a node is the node and what lies below each of its
children. A walk with a stack of pending nodes visits them in this order. -/

namespace BranchTally.Tree

variable {t : Tree} {i c : Nat} {n : Node}

theorem childrenOf_eq (hn : t.nodes[i]? = some n) : t.childrenOf i = n.children := by
  rw [childrenOf, hn]

/-- What holds of a node whenever it holds of all later nodes, its descendants among them, holds of
every node. -/
theorem later_induction {P : NodeId → Prop}
    (step : ∀ i < t.size, (∀ j, i < j → j < t.size → P j) → P i) {i : Nat} (hi : i < t.size) :
    P i := by
  suffices ∀ i : Nat, i < t.size → P i from this i hi
  intro i
  apply Nat.strong_decreasing_induction (P := fun i => i < t.size → P i) (n := i)
  · exact ⟨t.size, fun j hj hlt => absurd hlt (by omega)⟩
  · intro i ih hi
    exact step i hi fun j hij hj => ih j hij hj

namespace Linked

variable (h : t.Linked)

include h

theorem lt_of_childrenOf (hc : c ∈ t.childrenOf i) : i < c ∧ c < t.size := by
  unfold childrenOf at hc
  split at hc
  next n hn => exact h.lt_of_present hn (h.present_eq hn ▸ hc)
  next => cases hc

/-- Levels beyond the number of nodes that come later do not matter. -/
theorem subtree_eq {k l : Nat} (hi : i < t.size) (hk : t.size ≤ i + k) (hl : t.size ≤ i + l) :
    t.subtree k i = t.subtree l i := by
  induction k generalizing i l with
  | zero => omega
  | succ k ih =>
    cases l with
    | zero => omega
    | succ l =>
      simp only [subtree]
      congr 1
      apply List.flatMap_congr
      intro c hc
      obtain ⟨hlt, hc⟩ := h.lt_of_childrenOf hc
      exact ih hc (by omega) (by omega)

/-- Below a node are the node and what is below its children. -/
theorem subtree_children (hi : i < t.size) :
    t.subtree t.size i = i :: (t.childrenOf i).flatMap (t.subtree t.size) := by
  rw [h.subtree_eq hi (l := t.size + 1) (by omega) (by omega), subtree]

/-- A quantity that every node adds to those of its children sums up what the nodes below add. -/
theorem sum_subtree {f g : NodeId → Int}
    (step : ∀ i < t.size, f i = g i + ((t.childrenOf i).map f).sum) (hi : i < t.size) :
    f i = ((t.subtree t.size i).map g).sum := by
  apply later_induction (P := fun i => f i = ((t.subtree t.size i).map g).sum) _ hi
  intro i hi ih
  have hall : ∀ ids : List NodeId, (∀ c ∈ ids, i < c ∧ c < t.size) →
      (ids.map f).sum = ((ids.flatMap (t.subtree t.size)).map g).sum := by
    intro ids hids
    induction ids with
    | nil => rfl
    | cons c ids ihs =>
      obtain ⟨hc, hids⟩ := List.forall_mem_cons.mp hids
      rw [List.map_cons, List.sum_cons, List.flatMap_cons, List.map_append, List.sum_append,
        ih c hc.1 hc.2, ihs hids]
  rw [step i hi, h.subtree_children hi, List.map_cons, List.sum_cons,
    hall _ fun c hc => h.lt_of_childrenOf hc]

/-- A walk visits what is below the pending nodes, one after the other. -/
theorem walk_eq {rounds : Nat} {pending : List NodeId} (hp : ∀ i ∈ pending, i < t.size) :
    t.walk rounds pending = (pending.flatMap (t.subtree t.size)).take rounds := by
  induction rounds generalizing pending with
  | zero => rfl
  | succ rounds ih =>
    cases pending with
    | nil => rfl
    | cons i pending =>
      obtain ⟨hi, hp⟩ := List.forall_mem_cons.mp hp
      have hnext : ∀ c ∈ t.childrenOf i ++ pending, c < t.size := by
        intro c hc
        rcases List.mem_append.mp hc with hc | hc
        · exact (h.lt_of_childrenOf hc).2
        · exact hp c hc
      rw [walk, ih hnext, List.flatMap_cons, h.subtree_children hi, List.flatMap_append,
        List.cons_append, List.take_succ_cons]

end Linked

end BranchTally.Tree
