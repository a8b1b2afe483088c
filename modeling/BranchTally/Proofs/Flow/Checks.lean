import BranchTally.Flow.Rules
import BranchTally.Proofs.Flow.Asking
import BranchTally.Proofs.Tree.Linked

/-! The checks around a derived count. A count that comes out has passed them, and a count that
passes them comes out: an entry is not negative, an execution and a completion are neither negative
nor above what bounds them. -/

namespace BranchTally.Flow.Evidence

open Flow.Derivation

variable {e : Evidence} {id : NodeId} {n : Node} {f : Query → Except Fault Int} {v : Int}

/-- The outcome of a sequence is a value if both parts have one. -/
theorem run_bind_eq_ok {α β : Type} {d : Derivation α} {g : α → Derivation β} {b : β} :
    (d >>= g).run f = .ok b ↔ ∃ a, d.run f = .ok a ∧ (g a).run f = .ok b := by
  rw [run_bind, bind_eq_ok]

/-- The outcome of a sequence is a fault if one of the parts has it. -/
theorem run_bind_eq_error {α β : Type} {d : Derivation α} {g : α → Derivation β} {fault : Fault} :
    (d >>= g).run f = .error fault ↔
      d.run f = .error fault ∨ ∃ a, d.run f = .ok a ∧ (g a).run f = .error fault := by
  rw [run_bind, bind_eq_error]

theorem run_place : (e.place id).run f = .ok n ↔ e.tree.nodes[id]? = some n := by
  unfold place
  cases e.tree.nodes[id]? <;> simp [run]

theorem run_nonNegative {quantity : Quantity} {node : Label} {m : Int} :
    (nonNegative quantity node m).run f = .ok v ↔ m = v ∧ 0 ≤ m := by
  unfold nonNegative
  split <;> simp [run] <;> omega

/-- How often control enters a node, from its parent or as the root. -/
def entrance (e : Evidence) (id : NodeId) (n : Node) : Derivation Int :=
  match n.parent with
  | none => pure (e.reading n .entry)
  | some p => do e.childEntry p (← e.tree.node p) id

theorem entryRule_eq (id : NodeId) : e.entryRule id =
    e.place id >>= fun n => e.entrance id n >>= nonNegative .entry (n.label id) := by
  unfold entryRule entrance
  congr 1
  funext n
  cases n.parent <;> simp

theorem run_entryRule : (e.entryRule id).run f = .ok v ↔
    ∃ n, e.tree.nodes[id]? = some n ∧ (e.entrance id n).run f = .ok v ∧ 0 ≤ v := by
  simp only [entryRule_eq, run_bind_eq_ok, run_place, run_nonNegative]
  constructor
  · rintro ⟨n, hn, m, hm, rfl, h0⟩
    exact ⟨n, hn, hm, h0⟩
  · rintro ⟨n, hn, hm, h0⟩
    exact ⟨n, hn, v, hm, rfl, h0⟩

theorem run_completionRule : (e.completionRule id).run f = .ok v ↔
    ∃ n b, e.tree.nodes[id]? = some n ∧ (e.fallThrough id n).run f = .ok v ∧
      f (completionBound id n) = .ok b ∧ 0 ≤ v ∧ v ≤ b := by
  simp only [completionRule, run_bind_eq_ok, run_place, run_nonNegative, run_count]
  constructor
  · rintro ⟨n, hn, m, hm, w, ⟨rfl, h0⟩, b, hb, hv⟩
    split at hv
    next => cases hv
    next hle =>
      cases hv
      exact ⟨n, b, hn, hm, hb, h0, by omega⟩
  · rintro ⟨n, b, hn, hm, hb, h0, hle⟩
    refine ⟨n, hn, v, hm, v, ⟨rfl, h0⟩, b, hb, ?_⟩
    rw [if_neg (by omega)]
    rfl

theorem run_executionRule : (e.executionRule id).run f = .ok v ↔
    ∃ n, e.tree.nodes[id]? = some n ∧ (e.arrival id n).run f = .ok v ∧ 0 ≤ v ∧
      (n.kind ≠ .handler → ∃ b, f (.entry id) = .ok b ∧ v ≤ b) := by
  simp only [executionRule, run_bind_eq_ok, run_place, run_nonNegative]
  constructor
  · rintro ⟨n, hn, m, hm, w, ⟨rfl, h0⟩, hv⟩
    split at hv
    next hk =>
      cases hv
      exact ⟨n, hn, hm, h0, fun hk' => absurd hk hk'⟩
    next =>
      simp only [run_bind_eq_ok, run_count] at hv
      obtain ⟨b, hb, hv⟩ := hv
      split at hv
      next => cases hv
      next hle =>
        cases hv
        exact ⟨n, hn, hm, h0, fun _ => ⟨b, hb, by omega⟩⟩
  · rintro ⟨n, hn, hm, h0, hb⟩
    refine ⟨n, hn, v, hm, v, ⟨rfl, h0⟩, ?_⟩
    split
    next => rfl
    next hk =>
      obtain ⟨b, hb, hle⟩ := hb hk
      simp only [run_bind_eq_ok, run_count]
      refine ⟨b, hb, ?_⟩
      rw [if_neg (by omega)]
      rfl

end BranchTally.Flow.Evidence
