import BranchTally.Proofs.Flow.Backward
import BranchTally.Proofs.Flow.Range

/-! How often a short-circuit completes. Control that completes it came through the right operand or
went past it; how often it went past is told by the execution of the right operand, and not by its
entry. The two agree unless the right operand is a rescue that watches a body or a handler arm, so
that in all other cases the completion is what falls through the right operand and those who
completed the left operand without entering the right one. A rescue whose body raises is executed
less often than it is entered: then the counts of a sound run contradict each other, or too many are
held to have gone past. -/

namespace BranchTally

namespace Width

variable {w : Width} {a b : Int}

/-- A sum gives back what was added. -/
theorem Keeps.add_sub (hb : w.Keeps b) : w.sub (w.add a b) a = b := by
  cases w with
  | unbounded => simp
  | word =>
    have hwrap : word.sub (word.add a b) a = word.fit b := by
      simp [add, sub, fit]
    exact hwrap.trans hb

theorem Keeps.add_left_cancel {c : Int} (hb : w.Keeps b) (hc : w.Keeps c)
    (h : w.add a b = w.add a c) : b = c := by
  rw [← hb.add_sub (a := a), h, hc.add_sub]

end Width

namespace Flow.Evidence

open Flow.Derivation BranchTally.Tree

variable {e : Evidence} {i l r : NodeId} {n : Node} {op : Connective} {u d w x y v : Int}

section ShortCircuit

variable (h : e.tree.Linked) (hn : e.tree.nodes[i]? = some n)
  (hc : n.construct = .shortCircuit op (some l) (some r)) (hd : e.answer (.completion l) = .ok d)
  (hx : e.answer (.execution r) = .ok x)

include h hn hc hd hx

/-- Control goes past the right operand as often as it completed the left one without reaching the
start of the right one, which cannot be more often. -/
theorem implicitBranch_of_shortCircuit :
    e.answer (.implicitBranch i) = .ok v ↔ x ≤ d ∧ v = d - x := by
  have hd0 : 0 ≤ d := completion_nonneg h hd
  have hx0 : 0 ≤ x := (bound_of_execution h hx).1
  have hsub : e.width.sub d x = d - x := (keeps_answer hd).sub_eq (keeps_answer hx) hd0 hx0
  rw [answer_eq h]
  simp only [rule, implicitBranchRule, run_bind_eq_ok, run_lift, node_eq_ok, hn, Option.some.injEq,
    exists_eq_left', hc, required_some, Except.ok.injEq, run_count, hd, hx, run_nonNegative, hsub]
  omega

/-- The completion is what falls through the right operand and those who went past it, if this is
within bounds. -/
theorem run_completion_of_shortCircuit (hu : e.answer (.entry i) = .ok u)
    (hy : e.answer (.completion r) = .ok y) :
    e.answer (.completion i) = .ok v ↔ x ≤ d ∧ v = e.width.add y (d - x) ∧ 0 ≤ v ∧ v ≤ u := by
  have hk : n.kind ≠ .handler := by simp [Node.kind, hc, Construct.kind]
  have hfall : (e.fallThrough i n).run e.answer = .ok v ↔
      x ≤ d ∧ v = e.width.add y (d - x) := by
    simp only [fallThrough, hc, run_bind_eq_ok, run_lift, required_some, Except.ok.injEq,
      exists_eq_left', run_count, hy, run_pure, implicitBranch_of_shortCircuit h hn hc hd hx]
    constructor
    · rintro ⟨z, ⟨hle, rfl⟩, rfl⟩
      exact ⟨hle, rfl⟩
    · rintro ⟨hle, rfl⟩
      exact ⟨d - x, ⟨hle, rfl⟩, rfl⟩
  rw [answer_eq h]
  refine run_completionRule.trans ?_
  simp only [hn, Option.some.injEq, exists_and_left, exists_eq_left', hfall, completionBound,
    if_neg hk, hu, Except.ok.injEq]
  tauto

/-- If control entered the right operand no more often than it completed the left one, and if those
who completed the right operand or did not enter it are no more than entered the short-circuit,
then they are the completion exactly if the right operand is executed as often as it is entered. -/
theorem completion_iff_execution (hu : e.answer (.entry i) = .ok u)
    (hw : e.answer (.entry r) = .ok w) (hy : e.answer (.completion r) = .ok y) (hwd : w ≤ d)
    (hle : y + (d - w) ≤ u) : e.answer (.completion i) = .ok (y + (d - w)) ↔ x = w := by
  have hw0 : 0 ≤ w := entry_nonneg h hw
  have hx0 : 0 ≤ x := (bound_of_execution h hx).1
  have hy0 : 0 ≤ y := completion_nonneg h hy
  have hdk := keeps_answer hd
  have hsum : e.width.add y (d - w) = y + (d - w) :=
    (keeps_answer hu).add_eq (by omega) hle
  rw [run_completion_of_shortCircuit h hn hc hd hx hu hy]
  constructor
  · rintro ⟨hxd, hv, -, -⟩
    have hkept : ∀ k, 0 ≤ k → k ≤ d → e.width.Keeps (d - k) := fun k h0 hkd =>
      e.width.keeps_zero.between hdk (by omega) (by omega)
    have := (hkept x hx0 hxd).add_left_cancel (hkept w hw0 hwd) (hv.symm.trans hsum.symm)
    omega
  · rintro rfl
    exact ⟨hwd, hsum.symm, by omega, hle⟩

end ShortCircuit

/-- Where all counts of the operands come out, the completion of a short-circuit adds to what falls
through the right operand what the left one completed beyond the execution of the right one, and
comes out if this stays within the entry. It is what the entry of the right operand says instead,
where that is within bounds, exactly if the right operand is executed as often as it is entered;
every right operand is, other than a rescue that watches a body or a handler arm. -/
theorem completion_of_shortCircuit {t : Tree} (ht : t.Loaded) (counters : Counters) (width : Width)
    {m : Node} (hn : t.nodes[i]? = some n) (hc : n.construct = .shortCircuit op (some l) (some r))
    (hr : t.nodes[r]? = some m) (hu : Gives ⟨t, counters, width⟩ (.entry i) u)
    (hd : Gives ⟨t, counters, width⟩ (.completion l) d)
    (hw : Gives ⟨t, counters, width⟩ (.entry r) w)
    (hy : Gives ⟨t, counters, width⟩ (.completion r) y)
    (hx : Gives ⟨t, counters, width⟩ (.execution r) x) :
    let e : Evidence := ⟨t, counters, width⟩
    (∀ later v, e.lookup later (.completion i) = .ok v ↔
      x ≤ d ∧ v = width.add y (d - x) ∧ 0 ≤ v ∧ v ≤ u) ∧
    (w ≤ d → y + (d - w) ≤ u →
      ∀ later, e.lookup later (.completion i) = .ok (y + (d - w)) ↔ x = w) ∧
    (m.construct.Direct → x = w) := by
  intro e
  have h : e.tree.Linked := ht.linked
  have hu := (gives_iff h).mp hu
  have hd := (gives_iff h).mp hd
  have hw := (gives_iff h).mp hw
  have hy := (gives_iff h).mp hy
  have hx := (gives_iff h).mp hx
  refine ⟨fun later v => ?_, fun hwd hle later => ?_, fun hdirect => ?_⟩
  · rw [lookup_eq h]
    exact run_completion_of_shortCircuit h hn hc hd hx hu hy
  · rw [lookup_eq h]
    exact completion_iff_execution h hn hc hd hx hu hw hy hwd hle
  · have hxw := entry_of_execution h hr (arrival_of_direct hdirect) hx
    exact Except.ok.inj (hxw.symm.trans hw)

end Flow.Evidence

/-! ### A right operand that is rescued -/

/-- A value that is looked up if it is wanted, `wanted && (fetch rescue Missing default)`. -/
def Dump.salvaging : Dump :=
  .node "and" 1 none [("entry", "1"), ("conditional", "2")]
    [.node "lvar" 1 none [] [],
      .node "rescue" 1 none []
        [.node "send" 1 none [("completion", "3")] [],
          .node "resbody" 1 none [("entered_body", "4")]
            [.node "const" 1 none [] [], .node "_" 1 none [] [], .node "lvar" 1 none [] []]]]

def Tree.salvaging : Tree :=
  ⟨#[⟨.shortCircuit .conjunction (some 1) (some 2), none, none, 0, [1, 2],
      [(.conditional, 2), (.entry, 1)], []⟩,
    ⟨.expression "lvar" [], none, some 0, 0, [], [], []⟩,
    ⟨.rescue (some 3) [4] none, none, some 0, 1, [3, 4], [], []⟩,
    ⟨.expression "send" [], none, some 2, 0, [], [(.completion, 3)], []⟩,
    ⟨.handler (some 5) none (some 6), none, some 2, 1, [5, 6], [(.enteredBody, 4)], []⟩,
    ⟨.expression "const" [], none, some 4, 0, [], [], []⟩,
    ⟨.expression "lvar" [], none, some 4, 1, [], [], []⟩]⟩

theorem Tree.salvaging_loaded : Tree.salvaging.Loaded := ⟨"salvaging", .salvaging, by decide +kernel⟩

/-- Of three runs one wants no value, one fetches it and one is left with the default: all complete,
and the completion of the conjunction comes out at no number. -/
theorem Flow.Evidence.completion_of_shortCircuit_salvaging :
    let e : Evidence := ⟨.salvaging, .ofList [(1, 3), (2, 2), (3, 1), (4, 1)], .word⟩
    e.Gives (.entry 0) 3 ∧ e.Gives (.completion 1) 3 ∧ e.Gives (.entry 2) 2 ∧
      e.Gives (.completion 2) 2 ∧ e.Gives (.execution 2) 1 ∧
      ∀ later v, e.lookup later (.completion 0) ≠ .ok v := by
  intro e
  have hu : e.Gives (.entry 0) 3 := ⟨[], by decide +kernel⟩
  have hd : e.Gives (.completion 1) 3 := ⟨[], by decide +kernel⟩
  have hw : e.Gives (.entry 2) 2 := ⟨[], by decide +kernel⟩
  have hy : e.Gives (.completion 2) 2 := ⟨[], by decide +kernel⟩
  have hx : e.Gives (.execution 2) 1 := ⟨[], by decide +kernel⟩
  obtain ⟨hcompletion, -⟩ := completion_of_shortCircuit Tree.salvaging_loaded e.counters e.width
    (i := 0) (l := 1) (r := 2) rfl rfl rfl hu hd hw hy hx
  refine ⟨hu, hd, hw, hy, hx, fun later v hv => ?_⟩
  obtain ⟨-, rfl, -, hle⟩ := (hcompletion later v).mp hv
  exact absurd hle (by decide)

/-- The entry of the right operand does not tell the completion of a short-circuit. -/
theorem Flow.Evidence.completion_not_by_entry :
    ¬ ∀ (t : Tree) (counters : Counters) (i l r : NodeId) (n : Node) (op : Connective)
      (u d w y x : Int), t.Loaded → t.nodes[i]? = some n →
      n.construct = .shortCircuit op (some l) (some r) →
      Gives ⟨t, counters, .word⟩ (.entry i) u → Gives ⟨t, counters, .word⟩ (.completion l) d →
      Gives ⟨t, counters, .word⟩ (.entry r) w → Gives ⟨t, counters, .word⟩ (.completion r) y →
      Gives ⟨t, counters, .word⟩ (.execution r) x → w ≤ d → y + (d - w) ≤ u →
      Evidence.lookup ⟨t, counters, .word⟩ [] (.completion i) = .ok (y + (d - w)) := by
  intro h
  have hgiven := h .salvaging (.ofList [(1, 3), (2, 2), (3, 1), (4, 1)]) 0 1 2 _ _ 3 3 2 2 1
    Tree.salvaging_loaded rfl rfl ⟨[], by decide +kernel⟩ ⟨[], by decide +kernel⟩
    ⟨[], by decide +kernel⟩ ⟨[], by decide +kernel⟩ ⟨[], by decide +kernel⟩ (by decide) (by decide)
  have hexcess :
      Evidence.lookup ⟨.salvaging, .ofList [(1, 3), (2, 2), (3, 1), (4, 1)], .word⟩ []
        (.completion 0) = .error (.excess .completed ⟨.shortCircuit, 0, none⟩ 4 3) := by
    decide +kernel
  exact absurd (hexcess.symm.trans hgiven) (by decide)

end BranchTally
